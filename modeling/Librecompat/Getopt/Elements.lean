/-
  How a call gets to the next element.

  `Layout` says how `argv` is divided between two calls: elements that were there before the scan,
  options with their arguments, skipped non-options, options that came after them, and the elements
  to come. `permuteNonopts_eq` and `skipDashes_eq` say what the two blocks make of it, and
  `nextElement_stop`, `nextElement_plain` and `nextElement_option` what a call does that has
  to go on to the next element.
-/
import Librecompat.Getopt.Exchange
import Librecompat.Getopt.Options

namespace Librecompat.Getopt

open Librecompat.Lib

/-- `front` is before the elements to scan and `post` behind `argc`; `P` and `D` are options with
    their arguments, `N` the non-options skipped so far and `R` the elements to come. -/
structure Layout (a : Args) (argv : List (Option CString)) (d : GetoptData)
    (front : List (Option CString)) (P N D R : List CString) (post : List (Option CString)) :
    Prop where
  argv : argv = front ++ (P.map some ++ (N.map some ++ (D.map some ++ (R.map some ++ post))))
  first : d.firstNonopt = front.length + P.length
  last : d.lastNonopt = d.firstNonopt + N.length
  optind : d.optind = d.lastNonopt + D.length
  argc : a.argc = d.optind + R.length

variable {a : Args} {argv : List (Option CString)} {d : GetoptData}
  {front post : List (Option CString)} {P N D R : List CString}

theorem Layout.rest (h : Layout a argv d front P N D R post) :
    Rest a (World.start argv d) R := by
  refine ⟨h.argc.symm, fun i e hi => ?_⟩
  have hlen : d.optind = (front ++ (P.map some ++ (N.map some ++ D.map some))).length := by
    rw [h.optind, h.last, h.first]
    simp [Nat.add_assoc]
  have hargv : argv = (front ++ (P.map some ++ (N.map some ++ D.map some))) ++
      (R.map some ++ post) := by
    rw [h.argv]
    simp
  show argv[d.optind + i]? = some (some e)
  have hlt : i < R.length := (List.getElem?_eq_some_iff.mp hi).1
  rw [hargv, hlen, List.getElem?_append_right (Nat.le_add_right _ _), Nat.add_sub_cancel_left,
    List.getElem?_append_left (by simpa using hlt), List.getElem?_map, hi, Option.map_some]

/-- The indices are cut off at `optind`. -/
theorem clampNonopts_eq (d : GetoptData) :
    clampNonopts d = { d with firstNonopt := min d.firstNonopt d.optind,
                              lastNonopt := min d.lastNonopt d.optind } := by
  unfold clampNonopts
  dsimp only
  by_cases hlast : d.lastNonopt > d.optind
  · rw [if_pos hlast, Nat.min_eq_right (Nat.le_of_lt hlast)]
    by_cases hfirst : d.firstNonopt > d.optind
    · exact (if_pos hfirst).trans (by rw [Nat.min_eq_right (Nat.le_of_lt hfirst)])
    · exact (if_neg hfirst).trans (by rw [Nat.min_eq_left (Nat.le_of_not_lt hfirst)])
  · rw [if_neg hlast, Nat.min_eq_left (Nat.le_of_not_lt hlast)]
    by_cases hfirst : d.firstNonopt > d.optind
    · exact (if_pos hfirst).trans (by rw [Nat.min_eq_right (Nat.le_of_lt hfirst)])
    · exact (if_neg hfirst).trans (by rw [Nat.min_eq_left (Nat.le_of_not_lt hfirst)])

theorem clampNonopts_idem (d : GetoptData) : clampNonopts (clampNonopts d) = clampNonopts d := by
  rw [clampNonopts_eq d, clampNonopts_eq]
  dsimp only
  rw [Nat.min_assoc, Nat.min_self, Nat.min_assoc, Nat.min_self]

theorem clampNonopts_of_le {d : GetoptData} (h1 : d.firstNonopt ≤ d.lastNonopt)
    (h2 : d.lastNonopt ≤ d.optind) : clampNonopts d = d := by
  rw [clampNonopts_eq, Nat.min_eq_left (Nat.le_trans h1 h2), Nat.min_eq_left h2]

/-- The clamping changes nothing between the calls of a run. -/
theorem Layout.clamp (h : Layout a argv d front P N D R post) : clampNonopts d = d := by
  have hlast := h.last
  have hoptind := h.optind
  exact clampNonopts_of_le (by omega) (by omega)

/-! ## Skipping non-options -/

theorem skip_loop (argc : Nat) : ∀ (R : List CString) (n optind : Nat), R.length < n →
    argc = optind + R.length → (∀ i e, R[i]? = some e → argv[optind + i]? = some (some e)) →
    loop (skipBody argc argv) n optind =
      some (some (optind + (R.takeWhile isNonoption).length))
  | [], n + 1, optind, _, hargc, _ => by
    refine loop_succ_inr (if_neg ?_)
    rw [hargc]
    exact Nat.lt_irrefl _
  | e :: R, n + 1, optind, hn, hargc, hget => by
    have hlt : optind < argc := by
      rw [hargc]
      simp
    have hbody : skipBody argc argv optind =
        if isNonoption e then .inl (optind + 1) else .inr (some optind) := by
      have he : argv[optind]? = some (some e) := hget 0 e rfl
      rw [skipBody, if_pos hlt, he]
    cases hno : isNonoption e with
    | true =>
      have ih := skip_loop argc R n (optind + 1) (Nat.lt_of_succ_lt_succ hn)
        (by rw [hargc, List.length_cons]; omega) fun i e' hi => by
          rw [Nat.add_assoc, Nat.add_comm 1]
          exact hget (i + 1) e' hi
      rw [hno] at hbody
      rw [loop_succ_inl hbody, ih, List.takeWhile_cons_of_pos hno, List.length_cons,
        Nat.add_assoc, Nat.add_comm 1]
    | false =>
      rw [hno] at hbody
      rw [loop_succ_inr hbody, List.takeWhile_cons_of_neg (by simp [hno])]
      rfl

theorem skipNonopts_eq (h : Rest a (World.start argv d) R) :
    skipNonopts a.argc argv d.optind = some (d.optind + (R.takeWhile isNonoption).length) := by
  unfold skipNonopts
  have hargc : a.argc = d.optind + R.length := h.argc.symm
  rw [skip_loop a.argc R _ _ (by omega) hargc h.get, Option.join_some]

/-- The options since the last non-options go in front of them. -/
theorem moveOptions_eq (h : Layout a argv d front P N D R post) :
    ∃ argv' d', moveOptions (World.start argv d) = some (World.start argv' d') ∧
      Layout a argv' { d' with lastNonopt := d.optind } front (P ++ D) N [] R post ∧
      d' = { d with firstNonopt := d'.firstNonopt, lastNonopt := d'.lastNonopt } := by
  unfold moveOptions
  dsimp only [World.start]
  obtain ⟨hargv, hfirst, hlast, hoptind, hargc⟩ := h
  have hN := @List.length_pos_iff _ N
  have hD := @List.length_pos_iff _ D
  by_cases hD0 : D = []
  · subst hD0
    rw [List.length_nil, Nat.add_zero] at hoptind
    refine ⟨argv, d, ?_, ⟨by simpa using hargv, by simpa using hfirst, ?_, by simp, hargc⟩, rfl⟩
    · rw [if_neg fun hne => hne.2 hoptind.symm, if_neg fun hne => hne hoptind.symm]
    · show d.optind = d.firstNonopt + N.length
      omega
  · have hDpos := hD.mpr hD0
    by_cases hN0 : N = []
    · subst hN0
      rw [List.length_nil, Nat.add_zero] at hlast
      refine ⟨argv, { d with firstNonopt := d.optind }, ?_, ⟨by simpa using hargv, ?_, by simp,
        by simp, hargc⟩, rfl⟩
      · rw [if_neg fun hne => hne.1 hlast.symm, if_pos (by omega)]
      · show d.optind = front.length + (P ++ D).length
        rw [List.length_append]
        omega
    · have hNpos := hN.mpr hN0
      rw [if_pos ⟨by omega, by omega⟩]
      rw [← List.append_assoc] at hargv
      rw [exchange_eq (w := World.start argv d) hargv (by simpa using hfirst)
        (by simpa [hfirst] using hlast) (by simpa [hfirst, hlast] using hoptind)]
      refine ⟨_, _, rfl, ⟨by simp, by simp [Nat.add_assoc], ?_, by simp, hargc⟩, rfl⟩
      simp only [List.length_append, List.length_map]
      omega

/-- The block for `PERMUTE`: the exchange, and then the next non-options are skipped. -/
theorem permuteNonopts_eq (h : Layout a argv d front P N D R post) :
    ∃ argv' d', permuteNonopts a (World.start argv d) = some (World.start argv' d') ∧
      Layout a argv' d' front (P ++ D) (N ++ R.takeWhile isNonoption) []
        (R.dropWhile isNonoption) post ∧
      d' = { d with optind := d'.optind, firstNonopt := d'.firstNonopt,
                    lastNonopt := d'.lastNonopt } := by
  obtain ⟨argv', d', hmove, hl, hd'⟩ := moveOptions_eq h
  have hoptind : d'.optind = d.optind := by rw [hd']
  have hskip := skipNonopts_eq (d := d') ⟨hl.rest.argc, hl.rest.get⟩
  unfold permuteNonopts
  rw [hmove]
  simp only [Option.bind_eq_bind, Option.bind_some, hskip]
  refine ⟨_, _, rfl, ?_, by rw [hd']⟩
  have hsplit := List.takeWhile_append_dropWhile (p := isNonoption) (l := R)
  have hlen := congrArg List.length hsplit
  rw [List.length_append] at hlen
  have hlast := hl.last
  have hargc := hl.argc
  dsimp only at hlast hargc
  refine ⟨?_, hl.first, ?_, by simp, ?_⟩
  · have hmap : R.map some ++ post = (R.takeWhile isNonoption).map some ++
        ((R.dropWhile isNonoption).map some ++ post) := by
      rw [← List.append_assoc, ← List.map_append, hsplit]
    rw [hl.argv, hmap]
    simp
  · dsimp only
    rw [List.length_append]
    omega
  · dsimp only
    omega

/-! ## The element at hand -/

variable {mallocOk printErrors : Bool} {optstring : Str}

/-- The non-options that a call skips before it looks at an element. -/
def skipped (ordering : Order) (R : List CString) : List CString :=
  if ordering = .permute then R.takeWhile isNonoption else []

/-- The elements from the one on that a call looks at. -/
def pending (ordering : Order) (R : List CString) : List CString :=
  if ordering = .permute then R.dropWhile isNonoption else R

theorem skipped_append (ordering : Order) (R : List CString) :
    skipped ordering R ++ pending ordering R = R := by
  unfold skipped pending
  split
  · exact List.takeWhile_append_dropWhile
  · rfl

theorem nonoption_of_mem_skipped {ordering : Order} {R : List CString} {e : CString}
    (h : e ∈ skipped ordering R) : isNonoption e = true := by
  unfold skipped at h
  split at h
  · exact List.mem_takeWhile_imp h
  · cases h

/-- In `PERMUTE` the element at hand is an option or `--`. -/
theorem head_pending {ordering : Order} (hperm : ordering = .permute) {R Q : List CString}
    {e : CString} (h : pending ordering R = e :: Q) : isNonoption e = false := by
  have hhead := List.head?_dropWhile_not isNonoption R
  rw [pending, if_pos hperm] at h
  rw [h] at hhead
  simpa using hhead

/-- A call that goes on to the next element looks at the first one that it does not skip. -/
theorem nextElement_settled (h : Layout a argv d front P N D R post)
    (hN : d.ordering ≠ .permute → N = []) :
    ∃ argv' d' P' D', (nextElement a mallocOk optstring printErrors (World.start argv d) =
        (skipDashes a (World.start argv' d')).bind
          (scanElement a mallocOk optstring printErrors)) ∧
      Layout a argv' d' front P' (N ++ skipped d.ordering R) D' (pending d.ordering R) post ∧
      P' ++ D' = P ++ D ∧ (N ++ skipped d.ordering R = [] ∨ D' = []) ∧
      d' = { d with optind := d'.optind, firstNonopt := d'.firstNonopt,
                    lastNonopt := d'.lastNonopt } := by
  unfold nextElement skipped pending
  dsimp only
  rw [h.clamp]
  by_cases hperm : d.ordering = .permute
  · obtain ⟨argv', d', hcall, hl, hd'⟩ := permuteNonopts_eq h
    rw [if_pos hperm, if_pos hperm, if_pos hperm, hcall, Option.bind_some]
    exact ⟨argv', d', P ++ D, [], rfl, hl, List.append_nil _, .inr rfl, hd'⟩
  · obtain rfl := hN hperm
    rw [if_neg hperm, if_neg hperm, if_neg hperm, Option.bind_some]
    exact ⟨argv, d, P, D, rfl, h, rfl, .inl rfl, rfl⟩

/-- Any other element than `--` is left to the rest of the function. -/
theorem skipDashes_other (h : Layout a argv d front P N D R post)
    (hR : ∀ e ∈ R.head?, e.1 ≠ dashes) :
    skipDashes a (World.start argv d) = some (World.start argv d) := by
  unfold skipDashes
  cases R with
  | nil => exact if_pos h.argc.symm
  | cons e R =>
    have hargc := h.argc
    have hne : d.optind ≠ a.argc := by
      rw [hargc]
      simp
    have hget : argv[d.optind]? = some (some e) := h.rest.head
    dsimp only
    rw [if_neg hne, hget]
    exact if_neg (hR e rfl)

/-- The element `--` is skipped like an option, and all that follows like non-options. -/
theorem skipDashes_eq {e : CString} (h : Layout a argv d front P N D (e :: R) post)
    (he : e.1 = dashes) (hND : N = [] ∨ D = []) :
    ∃ argv' d', skipDashes a (World.start argv d) = some (World.start argv' d') ∧
      argv' = front ++ ((P ++ D ++ [e]).map some ++ ((N ++ R).map some ++ post)) ∧
      d' = { d with optind := a.argc, firstNonopt := front.length + (P ++ D ++ [e]).length,
                    lastNonopt := a.argc } := by
  have hget : argv[d.optind]? = some (some e) := h.rest.head
  obtain ⟨hargv, hfirst, hlast, hoptind, hargc⟩ := h
  have hne : d.optind ≠ a.argc := by
    rw [hargc]
    simp
  unfold skipDashes
  dsimp only
  rw [if_neg hne, hget, Option.bind_eq_bind, Option.bind_some]
  dsimp only
  rw [if_pos he]
  unfold moveDashes
  dsimp only
  by_cases hN0 : N = []
  · subst hN0
    rw [List.length_nil, Nat.add_zero] at hlast
    rw [if_neg fun hne => hne.1 hlast.symm, if_pos hlast.symm]
    have hpos : d.optind + 1 = front.length + (P ++ D ++ [e]).length := by
      simp only [List.length_append, List.length_singleton]
      omega
    refine ⟨argv, _, rfl, by simpa using hargv, ?_⟩
    dsimp only
    rw [hpos]
  · obtain rfl := hND.resolve_left hN0
    have hNpos := List.length_pos_iff.mpr hN0
    rw [List.length_nil, Nat.add_zero] at hoptind
    have hexch := @exchange_eq (World.start argv { d with optind := d.optind + 1 })
      (front ++ P.map some) (N.map some) [some e] (R.map some ++ post) (by simpa using hargv)
      (by simpa using hfirst) (by simp; omega) (by simp; omega)
    rw [if_pos ⟨by omega, by omega⟩, hexch]
    refine ⟨_, _, rfl, by simp, ?_⟩
    simp [Nat.add_assoc]

/-! ## What a call looks at -/

/-- What a call does that goes on to the next element: it stops in front of `left`, behind `--` when
    that is what stops it, hands out a non-option, or handles an option. -/
inductive Look
  | stop (dash left : List CString)
  | plain (e : CString) (next : List CString)
  | option (e : CString) (next : List CString)

def look (ordering : Order) (R : List CString) : Look :=
  match pending ordering R with
  | [] => .stop [] []
  | e :: next =>
    if e.1 = dashes then .stop [e] next
    else if isNonoption e then
      if ordering = .requireOrder then .stop [] (e :: next) else .plain e next
    else .option e next

/-- The scan has ended with the options `C` in front of the other elements `N`. -/
def Stopped (a : Args) (front : List (Option CString)) (C N : List CString)
    (post : List (Option CString)) (w : World) : Prop :=
  ∃ P D, Layout a w.argv (clampNonopts w.data) front P [] D N post ∧ P ++ D = C

theorem clampNonopts_of_ge {d : GetoptData} (h1 : d.firstNonopt = d.optind)
    (h2 : d.optind ≤ d.lastNonopt) : clampNonopts d = { d with lastNonopt := d.optind } := by
  rw [clampNonopts_eq, Nat.min_eq_left (Nat.le_of_eq h1), Nat.min_eq_right h2]

/-- Behind skipped non-options the scan backs over them. -/
theorem stopScan_skipped (h : Layout a argv d front P N [] [] post) :
    Stopped a front P N post (stopScan (World.start argv d)).1 := by
  obtain ⟨hargv, hfirst, hlast, hoptind, hargc⟩ := h
  rw [List.length_nil, Nat.add_zero] at hoptind hargc
  have hind : (stopScan (World.start argv d)).1.data.optind = d.firstNonopt := by
    show (if d.firstNonopt ≠ d.lastNonopt then d.firstNonopt else d.optind) = d.firstNonopt
    split <;> omega
  have hclamp := @clampNonopts_of_ge (stopScan (World.start argv d)).1.data hind.symm
    (by rw [hind]; exact hlast ▸ Nat.le_add_right _ _)
  refine ⟨P, [], ?_, List.append_nil P⟩
  rw [hclamp]
  refine ⟨show argv = _ by simpa using hargv, hfirst, ?_, by simp, ?_⟩
  · dsimp only
    rw [hind]
    rfl
  · dsimp only
    rw [hind]
    omega

/-- Without skipped non-options the scan stops where it is. -/
theorem stopScan_plain (h : Layout a argv d front P [] D [] post) :
    Stopped a front (P ++ D) [] post (stopScan (World.start argv d)).1 := by
  have hlast : d.lastNonopt = d.firstNonopt := h.last
  have hdata : (stopScan (World.start argv d)).1 = World.start argv d := by
    show World.start argv { d with
      optind := if d.firstNonopt ≠ d.lastNonopt then d.firstNonopt else d.optind } = _
    rw [if_neg fun hne => hne hlast.symm]
  refine ⟨P, D, ?_, rfl⟩
  rw [hdata, h.clamp]
  exact h

theorem scanElement_end (h : d.optind = a.argc) :
    scanElement a mallocOk optstring printErrors (World.start argv d) =
      some (stopScan (World.start argv d)) := if_pos h

theorem scanElement_cons {e : CString} (h : Layout a argv d front P N D (e :: R) post) :
    scanElement a mallocOk optstring printErrors (World.start argv d) =
      if isNonoption e then
        if d.ordering = .requireOrder then some (World.start argv d, -1)
        else some (World.start argv { d with optarg := some e.1, optind := d.optind + 1 }, 1)
      else optionElement a mallocOk optstring printErrors e (World.start argv d) := by
  have hargc := h.argc
  have hne : d.optind ≠ a.argc := by
    rw [hargc]
    simp
  have hget : argv[d.optind]? = some (some e) := h.rest.head
  unfold scanElement
  dsimp only
  rw [if_neg hne, hget]
  rfl

theorem nextElement_stop {dash left : List CString} (h : Layout a argv d front P N D R post)
    (hN : d.ordering ≠ .permute → N = []) (hlook : look d.ordering R = .stop dash left) :
    ∃ w, nextElement a mallocOk optstring printErrors (World.start argv d) = some (w, -1) ∧
      Stopped a front (P ++ D ++ dash) (N ++ skipped d.ordering R ++ left) post w ∧
      w.data.ordering = d.ordering ∧ w.data.initialized = d.initialized ∧
      w.data.nextchar = d.nextchar ∧ w.data.optarg = d.optarg := by
  obtain ⟨argv', d', P', D', hcall, hl, hPD, hND, hd'⟩ :=
    @nextElement_settled _ _ _ _ _ _ _ _ _ mallocOk printErrors optstring h hN
  have hord : d'.ordering = d.ordering := by rw [hd']
  have hinit : d'.initialized = d.initialized := by rw [hd']
  have hnext : d'.nextchar = d.nextchar := by rw [hd']
  have hopt : d'.optarg = d.optarg := by rw [hd']
  rw [hcall, ← hPD]
  unfold look at hlook
  generalize pending d.ordering R = Q at hl hlook
  cases Q with
  | nil =>
    obtain ⟨rfl, rfl⟩ := Look.stop.inj hlook
    rw [skipDashes_other hl nofun, Option.bind_some, scanElement_end hl.argc.symm, List.append_nil,
      List.append_nil]
    refine ⟨_, rfl, ?_, hord, hinit, hnext, hopt⟩
    rcases hND with h0 | rfl
    · rw [h0] at hl ⊢
      exact stopScan_plain hl
    · rw [List.append_nil]
      exact stopScan_skipped hl
  | cons e Q =>
    dsimp only at hlook
    by_cases hdash : e.1 = dashes
    · rw [if_pos hdash] at hlook
      obtain ⟨rfl, rfl⟩ := Look.stop.inj hlook
      obtain ⟨argv₁, d₁, hskip, hargv₁, hd₁⟩ := skipDashes_eq hl hdash hND
      have hind₁ : d₁.optind = a.argc := by rw [hd₁]
      rw [hskip, Option.bind_some, scanElement_end hind₁]
      have hargc := hl.argc
      have hoptind := hl.optind
      have hlast := hl.last
      have hfirst := hl.first
      rw [List.length_cons] at hargc
      -- all that follows counts as skipped
      have hl₁ : Layout a argv₁ d₁ front (P' ++ D' ++ [e]) (N ++ skipped d.ordering R ++ Q) [] []
          post := by
        rw [hd₁]
        refine ⟨by simpa using hargv₁, rfl, ?_, rfl, rfl⟩
        simp only [List.length_append, List.length_singleton] at hlast ⊢
        omega
      exact ⟨_, rfl, stopScan_skipped hl₁, by rw [← hord, hd₁], by rw [← hinit, hd₁],
        by rw [← hnext, hd₁], by rw [← hopt, hd₁]⟩
    · have hother : ∀ e' ∈ (e :: Q).head?, e'.1 ≠ dashes := fun e' he' => by
        obtain rfl := Option.some.inj he'
        exact hdash
      rw [if_neg hdash] at hlook
      rw [skipDashes_other hl hother, Option.bind_some, scanElement_cons hl]
      cases hno : isNonoption e with
      | false =>
        rw [hno] at hlook
        cases hlook
      | true =>
        by_cases hreq : d.ordering = .requireOrder
        · rw [hno, if_pos rfl, if_pos hreq] at hlook
          obtain ⟨rfl, rfl⟩ := Look.stop.inj hlook
          have hperm : d.ordering ≠ .permute := by rw [hreq]; decide
          have hskip : skipped d.ordering R = [] := if_neg hperm
          obtain rfl := hN hperm
          rw [hskip] at hl ⊢
          rw [if_pos rfl, if_pos (hord.trans hreq), List.append_nil]
          refine ⟨_, rfl, ⟨P', D', ?_, rfl⟩, hord, hinit, hnext, hopt⟩
          rw [hl.clamp]
          exact hl
        · rw [hno, if_pos rfl, if_neg hreq] at hlook
          cases hlook

/-- `RETURN_IN_ORDER` hands out a non-option. -/
theorem nextElement_plain {e : CString} {next : List CString}
    (h : Layout a argv d front P N D R post) (hN : d.ordering ≠ .permute → N = [])
    (hlook : look d.ordering R = .plain e next) :
    d.ordering = .returnInOrder ∧ isNonoption e = true ∧ R = e :: next ∧
    ∃ argv' d' P' D', nextElement a mallocOk optstring printErrors (World.start argv d) =
        some (World.start argv' { d' with optarg := some e.1, optind := d'.optind + 1 }, 1) ∧
      Layout a argv' d' front P' [] D' (e :: next) post ∧ P' ++ D' = P ++ D ∧
      d' = { d with optind := d'.optind, firstNonopt := d'.firstNonopt,
                    lastNonopt := d'.lastNonopt } := by
  obtain ⟨argv', d', P', D', hcall, hl, hPD, -, hd'⟩ :=
    @nextElement_settled _ _ _ _ _ _ _ _ _ mallocOk printErrors optstring h hN
  have hord : d'.ordering = d.ordering := by rw [hd']
  unfold look at hlook
  cases hQ : pending d.ordering R with
  | nil =>
    rw [hQ] at hlook
    cases hlook
  | cons e' Q =>
    rw [hQ] at hlook hl
    dsimp only at hlook
    by_cases hdash : e'.1 = dashes
    · rw [if_pos hdash] at hlook
      cases hlook
    · rw [if_neg hdash] at hlook
      cases hno : isNonoption e' with
      | false =>
        rw [hno] at hlook
        cases hlook
      | true =>
        rw [hno, if_pos rfl] at hlook
        by_cases hreq : d.ordering = .requireOrder
        · rw [if_pos hreq] at hlook
          cases hlook
        · rw [if_neg hreq] at hlook
          obtain ⟨rfl, rfl⟩ := Look.plain.inj hlook
          -- `PERMUTE` would have skipped the element
          have hperm : d.ordering ≠ .permute := fun hperm => by
            have := head_pending hperm hQ
            rw [hno] at this
            cases this
          have hskip : skipped d.ordering R = [] := if_neg hperm
          have hpend : pending d.ordering R = R := if_neg hperm
          have hother : ∀ e'' ∈ (e' :: Q).head?, e''.1 ≠ dashes := fun e'' he'' => by
            obtain rfl := Option.some.inj he''
            exact hdash
          obtain rfl := hN hperm
          rw [hskip] at hl
          refine ⟨?_, hno, hpend ▸ hQ, argv', d', P', D', ?_, hl, hPD, hd'⟩
          · cases hd : d.ordering with
            | requireOrder => exact absurd hd hreq
            | permute => exact absurd hd hperm
            | returnInOrder => rfl
          · rw [hcall, skipDashes_other hl hother, Option.bind_some, scanElement_cons hl, hno,
              if_pos rfl, if_neg (hord ▸ hreq)]

/-- An option is handled where it is, behind the options and the non-options before it. -/
theorem nextElement_option {e : CString} {next : List CString}
    (h : Layout a argv d front P N D R post) (hN : d.ordering ≠ .permute → N = [])
    (hlook : look d.ordering R = .option e next) :
    isNonoption e = false ∧ e.1 ≠ dashes ∧ skipped d.ordering R ++ e :: next = R ∧
    ∃ argv' d' P' D', nextElement a mallocOk optstring printErrors (World.start argv d) =
        optionElement a mallocOk optstring printErrors e (World.start argv' d') ∧
      Layout a argv' d' front P' (N ++ skipped d.ordering R) D' (e :: next) post ∧
      P' ++ D' = P ++ D ∧
      d' = { d with optind := d'.optind, firstNonopt := d'.firstNonopt,
                    lastNonopt := d'.lastNonopt } := by
  obtain ⟨argv', d', P', D', hcall, hl, hPD, hND, hd'⟩ :=
    @nextElement_settled _ _ _ _ _ _ _ _ _ mallocOk printErrors optstring h hN
  have happ := skipped_append d.ordering R
  unfold look at hlook
  generalize pending d.ordering R = Q at hl hlook happ
  cases Q with
  | nil => cases hlook
  | cons e' Q =>
    dsimp only at hlook
    by_cases hdash : e'.1 = dashes
    · rw [if_pos hdash] at hlook
      cases hlook
    · rw [if_neg hdash] at hlook
      cases hno : isNonoption e' with
      | true =>
        rw [hno, if_pos rfl] at hlook
        split at hlook <;> cases hlook
      | false =>
        rw [hno, if_neg Bool.false_ne_true] at hlook
        obtain ⟨rfl, rfl⟩ := Look.option.inj hlook
        have hother : ∀ e'' ∈ (e' :: Q).head?, e''.1 ≠ dashes := fun e'' he'' => by
          obtain rfl := Option.some.inj he''
          exact hdash
        refine ⟨hno, hdash, happ, argv', d', P', D', ?_, hl, hPD, hd'⟩
        rw [hcall, skipDashes_other hl hother, Option.bind_some, scanElement_cons hl, hno]
        rfl

end Librecompat.Getopt
