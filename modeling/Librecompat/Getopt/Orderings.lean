/-
  The two orderings agree.

  A run that permutes is followed by a run over the elements as it left them, with the ordering
  `REQUIRE_ORDER`. Between two calls the second run has in front of it what the first one will yet
  move to the options (`consumed`), and an option depends on nothing but the elements that it takes
  (`takeOption_local`): so the second run makes the same steps (`calls_strict`).
-/
import Librecompat.Getopt.Permute

namespace Librecompat.Getopt

open Librecompat.Lib

/-- `posixly_correct` is set. -/
def Args.strict (a : Args) : Args := { a with posixlyCorrect := true }

variable {a : Args} {front post argv : List (Option CString)} {d : GetoptData} {s s' : Scan}
  {t : Taken} {ts : List Taken} {o : Order} {text : Str} {C N R : List CString} {e : CString}
  {next : List CString}

theorem NoMinusOne.strict (hm : NoMinusOne a) : NoMinusOne a.strict := ⟨hm.long, hm.short⟩

theorem ordering_strict (hminus : a.optstring.1.head? ≠ some 45) :
    a.strict.ordering = .requireOrder := by
  have hminus' : a.strict.optstring.1.head? ≠ some 45 := hminus
  have hposix : a.strict.posixlyCorrect = true ∨ a.strict.posixlyEnv = true := .inl rfl
  unfold Args.ordering chooseOrdering
  rw [if_neg hminus', if_pos hposix]
  split <;> rfl

/-! ## What the permuting run will take -/

/-- Steps add to the options. -/
theorem Steps.adds (h : Steps a o s ts s') : ∃ more, s'.C = s.C ++ more := by
  induction h with
  | nil s => exact ⟨[], (List.append_nil _).symm⟩
  | cons hstep _ ih =>
    obtain ⟨skip, used, hC, -⟩ := hstep.moves
    obtain ⟨more, ih⟩ := ih
    exact ⟨used ++ more, by rw [ih, hC, List.append_assoc]⟩

theorem Steps.ends_adds (h : Steps a o s ts s') (hstop : Stop o s' C N) :
    ∃ more, C = s.C ++ more := by
  obtain ⟨more, hmore⟩ := h.adds
  obtain ⟨skip, dash, left, hC, -⟩ := hstop.moves
  exact ⟨more ++ dash, by rw [hC, hmore, List.append_assoc]⟩

/-- An element in which a call has stopped becomes an option. -/
theorem Steps.finishes (h : Steps a o s ts s') (hstop : Stop o s' C N) (htext : s.text ≠ [])
    (hR : s.R = e :: next) : ∃ more, C = s.C ++ e :: more := by
  induction h with
  | nil s =>
    obtain ⟨skip, dash, left, -, -, -, -, htext', -⟩ := hstop.moves
    exact absurd htext' htext
  | @cons _ _ _ t _ hstep hsteps ih =>
    cases hstep with
    | @short _ _ text C N next' e' _ _ ht =>
      obtain ⟨rfl, rfl⟩ := List.cons.inj hR
      cases hk : t.taken with
      | zero =>
        obtain ⟨c, -, hrest⟩ := (takeShort_advances ht).inside hk
        have hnext := ih hstop hrest (by rw [hk]; rfl)
        rwa [hk, List.take_zero, List.append_nil] at hnext
      | succ k =>
        obtain ⟨more, hmore⟩ := hsteps.ends_adds hstop
        rw [hk, List.take_succ_cons] at hmore
        exact ⟨next'.take k ++ more, by rw [hmore]; simp⟩
    | option hlook ht => exact absurd rfl htext
    | plain hlook => exact absurd rfl htext

/-- When an option is handled, the elements that will become options are the ones that it takes, in
    front of some others. -/
theorem consumed (hadv : Advances text next t) {N₁ : List CString}
    (hsteps : Steps a o ⟨t.nextchar.getD [], C ++ (e :: next).take t.taken, N₁,
      (e :: next).drop t.taken⟩ ts s') {C' N' : List CString} (hstop : Stop o s' C' N') :
    ∃ used r r', next = used ++ r ∧ t.taken ≤ used.length + 1 ∧ C' = C ++ e :: (used ++ r') := by
  cases hk : t.taken with
  | zero =>
    obtain ⟨c, -, hrest⟩ := hadv.inside hk
    have hmore : ∃ more, C' = C ++ (e :: next).take t.taken ++ e :: more :=
      hsteps.finishes hstop hrest (by rw [hk]; rfl)
    rw [hk, List.take_zero, List.append_nil] at hmore
    obtain ⟨more, hmore⟩ := hmore
    exact ⟨[], next, more, rfl, Nat.zero_le _, hmore⟩
  | succ k =>
    obtain ⟨more, hmore⟩ := hsteps.ends_adds hstop
    have hle := hadv.le
    rw [hk, List.take_succ_cons] at hmore
    refine ⟨next.take k, next.drop k, more, (List.take_append_drop k next).symm, ?_, ?_⟩
    · rw [List.length_take, Nat.min_eq_left (by omega)]
    · rw [hmore]
      simp

/-! ## The second run -/

theorem Step.eq_short (h : Step a o ⟨text, C, N, e :: next⟩ t s') (htext : text ≠ []) :
    ∃ mallocOk printErrors, takeShort a mallocOk a.shortopts printErrors text e next = some t ∧
      s' = ⟨t.nextchar.getD [], C ++ (e :: next).take t.taken, N, (e :: next).drop t.taken⟩ := by
  cases h with
  | short _ ht => exact ⟨_, _, ht, rfl⟩
  | option => exact absurd rfl htext
  | plain => exact absurd rfl htext

theorem Step.eq_option (h : Step a o ⟨[], C, N, R⟩ t s') (hlook : look o R = .option e next) :
    ∃ mallocOk printErrors, takeOption a mallocOk a.shortopts printErrors e next = some t ∧
      s' = ⟨t.nextchar.getD [], C ++ (e :: next).take t.taken, N ++ skipped o R,
        (e :: next).drop t.taken⟩ := by
  cases h with
  | short htext => exact absurd rfl htext
  | option hlook' ht =>
    obtain ⟨rfl, rfl⟩ := Look.option.inj (hlook.symm.trans hlook')
    exact ⟨_, _, ht, rfl⟩
  | plain hlook' => exact absurd (hlook.symm.trans hlook') nofun

theorem Stop.eq_look {C' N' dash left : List CString} (h : Stop o ⟨[], C, N, R⟩ C' N')
    (hlook : look o R = .stop dash left) : C' = C ++ dash ∧ N' = N ++ skipped o R ++ left := by
  cases h with
  | mk hlook' =>
    obtain ⟨rfl, rfl⟩ := Look.stop.inj (hlook.symm.trans hlook')
    exact ⟨rfl, rfl⟩

theorem Step.not_stop {dash left : List CString} (h : Step a o ⟨[], C, N, R⟩ t s')
    (hlook : look o R = .stop dash left) : False := by
  cases h with
  | short htext => exact htext rfl
  | option hlook' => exact absurd (hlook.symm.trans hlook') nofun
  | plain hlook' => exact absurd (hlook.symm.trans hlook') nofun

theorem Stop.not_option {C' N' : List CString} (h : Stop o ⟨[], C, N, R⟩ C' N')
    (hlook : look o R = .option e next) : False := by
  cases h with
  | mk hlook' => exact absurd (hlook.symm.trans hlook') nofun

theorem look_strict_option (hdash : e.1 ≠ dashes) (hno : isNonoption e = false) :
    look .requireOrder (e :: next) = .option e next := by
  show (if e.1 = dashes then _ else _) = _
  rw [if_neg hdash, hno]
  rfl

theorem nonoption_ne_dashes (h : isNonoption e = true) : e.1 ≠ dashes := by
  intro he
  unfold isNonoption at h
  rw [he] at h
  exact absurd h (by decide)

theorem look_strict_stop {dash : List CString}
    (h : (∃ e, dash = [e] ∧ e.1 = dashes) ∨ dash = [] ∧ ∀ e ∈ N, isNonoption e = true) :
    look .requireOrder (dash ++ N) = .stop dash N := by
  rcases h with ⟨e, rfl, he⟩ | ⟨rfl, hN⟩
  · exact if_pos he
  · cases N with
    | nil => rfl
    | cons e N =>
      have hno : isNonoption e = true := hN e List.mem_cons_self
      show (if e.1 = dashes then _ else _) = _
      rw [if_neg (nonoption_ne_dashes hno), hno]
      rfl

/-- The end of the second run. -/
theorem call_strict_end (hm : NoMinusOne a) (hord : a.ordering = .requireOrder) {dash : List CString}
    (hready : Ready a front post argv d ⟨[], C, [], dash ++ N⟩)
    (hdash : (∃ e, dash = [e] ∧ e.1 = dashes) ∨ dash = [] ∧ ∀ e ∈ N, isNonoption e = true)
    (mallocOk : Bool) :
    ∃ w, getoptInternalR a mallocOk argv d = some (w, -1) ∧ w.data.optarg = none ∧
      At a front post w.argv w.data ⟨[], C ++ dash, [], N⟩ := by
  have hlook := look_strict_stop hdash
  have hout := hready.outcome mallocOk fun _ _ _ _ => hm.not_minusOne
  generalize getoptInternalR a mallocOk argv d = call at hout ⊢
  cases hout with
  | @stop w C' N' hstop hat hoptarg =>
    rw [hord] at hstop
    obtain ⟨rfl, rfl⟩ := hstop.eq_look hlook
    exact ⟨w, rfl, hoptarg, hat⟩
  | step hstep =>
    rw [hord] at hstep
    exact (hstep.not_stop hlook).elim

theorem take_shared {used : List CString} {k : Nat} (h : k ≤ used.length + 1)
    (r r' : List CString) : (e :: (used ++ r')).take k = (e :: (used ++ r)).take k := by
  rw [← List.cons_append, ← List.cons_append, List.take_append_of_le_length h,
    List.take_append_of_le_length h]

/-- An option that takes the same from other elements leaves the scanner in the same state. -/
theorem scan_again {t₂ : Taken} {used : List CString} (hsame : t.Same t₂)
    (hle : t.taken ≤ used.length + 1) (r r' : List CString) :
    (⟨t₂.nextchar.getD [], C ++ (e :: (used ++ (r' ++ N))).take t₂.taken, [],
        (e :: (used ++ (r' ++ N))).drop t₂.taken⟩ : Scan) =
      ⟨t.nextchar.getD [], C ++ (e :: (used ++ r)).take t.taken, [],
        (e :: (used ++ r')).drop t.taken ++ N⟩ := by
  have hlen : t.taken ≤ (e :: (used ++ r')).length := by
    rw [List.length_cons, List.length_append]
    omega
  have hdrop : (e :: (used ++ (r' ++ N))).drop t.taken = (e :: (used ++ r')).drop t.taken ++ N := by
    rw [← List.drop_append_of_le_length hlen, List.cons_append, List.append_assoc]
  rw [hsame.nextchar, hsame.taken, take_shared hle r (r' ++ N), hdrop]

/-- One call of the second run. -/
theorem call_strict_step (hm : NoMinusOne a) (hord : a.strict.ordering = .requireOrder)
    {s₁ : Scan} (hstep : Step a .permute s t s₁) (hsteps : Steps a .permute s₁ ts s')
    (hstop : Stop .permute s' C N) (hmissing : t.missing = false) (hC : C = s.C ++ R)
    (hready : Ready a.strict front post argv d ⟨s.text, s.C, [], R ++ N⟩) (mallocOk : Bool) :
    ∃ w R₁, C = s₁.C ++ R₁ ∧ getoptInternalR a.strict mallocOk argv d = some (w, t.ret) ∧
      w.data.optarg = t.optarg ∧
      At a.strict front post w.argv w.data ⟨s₁.text, s₁.C, [], R₁ ++ N⟩ := by
  have hout := hready.outcome mallocOk fun _ _ _ _ => hm.strict.not_minusOne
  generalize getoptInternalR a.strict mallocOk argv d = call at hout ⊢
  cases hstep with
  | @short _ _ text C₀ N₀ next e _ htext ht =>
    obtain ⟨used, r, r', rfl, hle, hall⟩ := consumed (takeShort_advances ht) hsteps hstop
    obtain rfl : R = e :: (used ++ r') := List.append_cancel_left (hC.symm.trans hall)
    rw [List.cons_append, List.append_assoc] at hout
    cases hout with
    | stop hstop₂ =>
      obtain ⟨skip, dash, left, -, -, -, -, hnil, -⟩ := hstop₂.moves
      exact absurd hnil htext
    | @step w t₂ s₂ hstep₂ hat _ hoptarg _ =>
      rw [hord] at hstep₂
      obtain ⟨mallocOk', printErrors', ht₂, rfl⟩ := hstep₂.eq_short htext
      obtain ⟨t', ht', hsame⟩ := takeShort_local (r' ++ N) ht hle hmissing
      obtain rfl : t' = t₂ := Option.some.inj (ht'.symm.trans ht₂)
      rw [scan_again hsame hle r r'] at hat
      refine ⟨w, _, ?_, by rw [hsame.ret], by rw [hoptarg, hsame.optarg], hat⟩
      rw [hall, List.append_assoc, take_shared hle r' r, List.take_append_drop]
  | @option _ _ C₀ N₀ R₀ next e _ hlook ht =>
    obtain ⟨used, r, r', rfl, hle, hall⟩ := consumed (takeOption_advances ht) hsteps hstop
    obtain rfl : R = e :: (used ++ r') := List.append_cancel_left (hC.symm.trans hall)
    rw [List.cons_append, List.append_assoc] at hout
    have hlook₂ : look .requireOrder (e :: (used ++ (r' ++ N))) = .option e (used ++ (r' ++ N)) :=
      look_strict_option (look_option hlook).2.1 (look_option hlook).2.2
    cases hout with
    | stop hstop₂ =>
      rw [hord] at hstop₂
      exact (hstop₂.not_option hlook₂).elim
    | @step w t₂ s₂ hstep₂ hat _ hoptarg _ =>
      rw [hord] at hstep₂
      obtain ⟨mallocOk', printErrors', ht₂, rfl⟩ := hstep₂.eq_option hlook₂
      obtain ⟨t', ht', hsame⟩ := takeOption_local (r' ++ N) ht hle hmissing
      obtain rfl : t' = t₂ := Option.some.inj (ht'.symm.trans ht₂)
      have hskip : skipped .requireOrder (e :: (used ++ (r' ++ N))) = [] := rfl
      rw [hskip, List.append_nil] at hat
      dsimp only at hat
      rw [scan_again hsame hle r r'] at hat
      refine ⟨w, _, ?_, by rw [hsame.ret], by rw [hoptarg, hsame.optarg], hat⟩
      rw [hall, List.append_assoc, take_shared hle r' r, List.take_append_drop]
  | plain hlook => exact absurd (look_plain hlook).1 nofun

/-- The second run makes the same steps and ends with the same options. -/
theorem calls_strict (hm : NoMinusOne a) (hord : a.strict.ordering = .requireOrder)
    (hsteps : Steps a .permute s ts s') (hstop : Stop .permute s' C N)
    (hnon : ∀ e ∈ s.N, isNonoption e = true) (hmissing : ∀ t ∈ ts, t.missing = false) :
    ∀ {R : List CString} {argv : List (Option CString)} {d : GetoptData} {ms : List Bool},
      C = s.C ++ R → Ready a.strict front post argv d ⟨s.text, s.C, [], R ++ N⟩ →
      ms.length = ts.length + 1 →
      ∃ outs w, calls a.strict ms argv d = some (outs ++ [(w, -1)]) ∧ w.data.optarg = none ∧
        outs.map reported = ts.map (fun t => (t.ret, t.optarg)) ∧
        At a.strict front post w.argv w.data ⟨[], C, [], N⟩ := by
  induction hsteps with
  | nil s =>
    intro R argv d ms hC hready hms
    obtain ⟨skip, dash, left, hC', hN, -, hskip, htext, hdash⟩ := hstop.moves
    obtain rfl : R = dash := List.append_cancel_left (hC.symm.trans hC')
    obtain ⟨mallocOk, rfl⟩ := List.length_eq_one_iff.mp hms
    rw [htext] at hready
    have hend : (∃ e, R = [e] ∧ e.1 = dashes) ∨ R = [] ∧ ∀ e ∈ N, isNonoption e = true := by
      refine hdash.imp id fun ⟨h0, hleft⟩ => ⟨h0, fun e he => ?_⟩
      rw [hN, hleft.resolve_left nofun, List.append_nil] at he
      exact (List.mem_append.mp he).elim (hnon e) (hskip e)
    obtain ⟨w, hcall, hoptarg, hat⟩ := call_strict_end hm.strict hord hready hend mallocOk
    rw [← hC] at hat
    refine ⟨[], w, ?_, hoptarg, rfl, hat⟩
    unfold calls
    rw [hcall]
    rfl
  | @cons s s₁ s₂ t ts hstep hsteps ih =>
    intro R argv d ms hC hready hms
    obtain ⟨mallocOk, ms, rfl⟩ : ∃ mallocOk ms', ms = mallocOk :: ms' :=
      List.exists_cons_of_length_eq_add_one hms
    obtain ⟨w, R₁, hC₁, hcall, hoptarg, hat⟩ := call_strict_step hm hord hstep hsteps hstop
      (hmissing t List.mem_cons_self) hC hready mallocOk
    obtain ⟨skip, used, -, hN, -, hskip⟩ := hstep.moves
    have hnon₁ : ∀ e ∈ s₁.N, isNonoption e = true := by
      intro e he
      rw [hN] at he
      exact (List.mem_append.mp he).elim (hnon e) (hskip e)
    obtain ⟨outs, w', houts, hopt, hsame, hend⟩ := ih hstop hnon₁
      (fun t' ht' => hmissing t' (List.mem_cons_of_mem t ht')) hC₁ hat.ready (Nat.succ.inj hms)
    refine ⟨(w, t.ret) :: outs, w', ?_, hopt, ?_, hend⟩
    · unfold calls
      rw [hcall, Option.bind_eq_bind, Option.bind_some, houts]
      rfl
    · rw [List.map_cons, List.map_cons, hsame, reported, hoptarg]

theorem reports_map {outs : List (World × Int)} (h : List.Forall₂ Reports ts outs) :
    outs.map reported = ts.map fun t => (t.ret, t.optarg) := by
  induction h with
  | nil => rfl
  | cons hreports _ ih =>
    rw [List.map_cons, List.map_cons, ih, reported, hreports.ret, hreports.optarg]

theorem reports_missing {outs : List (World × Int)} (h : List.Forall₂ Reports ts outs)
    (hfound : ∀ o ∈ outs, o.1.diag.any Diagnosis.missing = false) :
    ∀ t ∈ ts, t.missing = false := by
  induction h with
  | nil => exact fun t ht => absurd ht List.not_mem_nil
  | @cons t o _ _ hreports _ ih =>
    intro t' ht'
    rcases List.mem_cons.mp ht' with rfl | hmem
    · rw [Taken.missing, ← hreports.diag]
      exact hfound o List.mem_cons_self
    · exact ih (fun o' ho' => hfound o' (List.mem_cons_of_mem o ho')) t' hmem

/-- `PERMUTE` and `REQUIRE_ORDER` agree: over the elements as a run has left them, a run that stops
    at the first non-option reports the same and ends at the same `optind`. -/
theorem orderings_agree {elems : List CString} {d₂ : GetoptData} (hlen : a.argc ≤ argv.length)
    (helems : (argv.take a.argc).drop 1 = elems.map some)
    (hminus : a.optstring.1.head? ≠ some 45) (hplus : a.optstring.1.head? ≠ some 43)
    (hposix : a.posixlyCorrect = false) (henv : a.posixlyEnv = false) (hfresh : Fresh d)
    (hfresh₂ : Fresh d₂) (hsame : 1 ≤ a.argc ∨ d₂ = d) (hm : NoMinusOne a) {ms ms₂ : List Bool}
    {outs : List (World × Int)} {w : World} (hms : ms₂.length = ms.length)
    (hrun : calls a ms argv d = some (outs ++ [(w, -1)])) (hret : ∀ o ∈ outs, o.2 ≠ -1)
    (hfound : ∀ o ∈ outs, o.1.diag.any Diagnosis.missing = false) :
    ∃ outs₂ w₂, calls a.strict ms₂ w.argv d₂ = some (outs₂ ++ [(w₂, -1)]) ∧
      (outs₂ ++ [(w₂, -1)]).map reported = (outs ++ [(w, -1)]).map reported ∧
      w₂.data.optind = w.data.optind := by
  have hcount := length_calls hrun
  rw [List.length_append, List.length_singleton] at hcount
  by_cases hargc : a.argc < 1
  · obtain rfl : d₂ = d := hsame.resolve_left (Nat.not_le_of_lt hargc)
    rw [calls_argc_zero hargc] at hrun
    obtain ⟨rfl, rfl⟩ := calls_argc_zero_ends (Option.some.inj hrun) hret
    obtain ⟨mallocOk, rfl⟩ := List.length_eq_one_iff.mp (hms.trans hcount.symm)
    have hcall : getoptInternalR a.strict mallocOk argv d₂ = some (World.start argv d₂, -1) :=
      if_pos hargc
    refine ⟨[], World.start argv d₂, ?_, rfl, rfl⟩
    unfold calls
    rw [hcall]
    rfl
  · have hready := ready_argv (Nat.le_of_not_lt hargc) hlen helems hfresh
    obtain ⟨ts, s, C, N, hsteps, hstop, hreports, hend, hopt⟩ :=
      calls_ends hm outs hready hrun hret
    rw [ordering_permute hminus hplus hposix henv] at hsteps hstop
    obtain ⟨hargv, hind, htotal⟩ := hend.final
    have hfront : (argv.take 1).length = 1 := by
      rw [List.length_take]
      omega
    have hready₂ : Ready a.strict (argv.take 1) (argv.drop a.argc) w.argv d₂
        ⟨[], [], [], C ++ N⟩ := by
      refine ready_fresh (hfresh₂.imp id And.right) ?_ ?_ (hfront.trans hfresh₂.start.symm)
      · rw [hargv]
        simp
      · rw [List.length_append, ← Nat.add_assoc, ← hind]
        exact htotal
    have hlength : ms₂.length = ts.length + 1 := by
      rw [hms, ← hcount, hreports.length_eq]
    obtain ⟨outs₂, w₂, hrun₂, hopt₂, hreported, hend₂⟩ := calls_strict hm (ordering_strict hminus)
      hsteps hstop (fun e he => absurd he List.not_mem_nil) (reports_missing hreports hfound) rfl
      hready₂ hlength
    refine ⟨outs₂, w₂, hrun₂, ?_, ?_⟩
    · rw [List.map_append, List.map_append, hreported, reports_map hreports]
      simp [reported, hopt, hopt₂]
    · rw [hend₂.final.2.1, hind]

theorem orderings_agree_argOption :
    ∃ o w outs₂ w₂, calls argOption [true, true] (programName :: argOptionElems.map some) freshData =
        some [o, (w, -1)] ∧
      calls argOption.strict [true, true] w.argv freshData = some (outs₂ ++ [(w₂, -1)]) ∧
      (outs₂ ++ [(w₂, -1)]).map reported = [o, (w, -1)].map reported ∧
      w₂.data.optind = w.data.optind := by
  obtain ⟨o, w, hrun, ho, hdiag⟩ : ∃ o w, calls argOption [true, true]
      (programName :: argOptionElems.map some) freshData = some [o, (w, -1)] ∧ o.2 ≠ -1 ∧
      o.1.diag.any Diagnosis.missing = false := ⟨_, _, rfl, by decide, rfl⟩
  obtain ⟨outs₂, w₂, hrun₂, hsame, hind⟩ := @orderings_agree argOption
    (programName :: argOptionElems.map some) freshData argOptionElems freshData (by decide) rfl
    (by decide) (by decide) rfl rfl (.inr ⟨rfl, rfl⟩) (.inr ⟨rfl, rfl⟩) (.inr rfl)
    ⟨nofun, by decide⟩ [true, true] [true, true] [o] w rfl hrun (by simpa using ho)
    (by simpa using hdiag)
  exact ⟨o, w, outs₂, w₂, hrun, hrun₂, hsame, hind⟩

/-- Behind an option that is returned as -1 nothing has been permuted yet, and `REQUIRE_ORDER` stops
    at the non-option in front of it. -/
theorem matched_minusOne_disagrees :
    ∃ w w₂, calls minusOneOption [true] (programName :: minusOneElems.map some) freshData =
        some [(w, -1)] ∧
      calls minusOneOption.strict [true] w.argv freshData = some [(w₂, -1)] ∧
      w₂.data.optind ≠ w.data.optind := ⟨_, _, rfl, rfl, by decide⟩

end Librecompat.Getopt
