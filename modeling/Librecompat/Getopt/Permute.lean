/-
  What a run does to `argv`.

  A call moves the non-options that it skips behind the ones skipped before, and the elements that
  it passes over behind the options (`Step.moves`, `Stop.moves`). So `argv` is a permutation of what
  it was after every call (`calls_perm`), and when the scan ends it is a stable partition.

  The return value -1 stands for the end of the scan only where no option has that value
  (`NoMinusOne`): `matched_minusOne_ends` is a run in which a long option has it.
-/
import Librecompat.Getopt.Calls
import Librecompat.Lib.Interleaved

namespace Librecompat.Getopt

open Librecompat.Lib

variable {a : Args} {front post argv : List (Option CString)} {d : GetoptData} {s s' : Scan}
  {t : Taken} {o : Order} {C N R : List CString}

/-! ## What a step moves -/

theorem look_option {e : CString} {next : List CString} (h : look o R = .option e next) :
    pending o R = e :: next ∧ e.1 ≠ dashes ∧ isNonoption e = false := by
  unfold look at h
  cases hQ : pending o R with
  | nil =>
    rw [hQ] at h
    cases h
  | cons e' Q =>
    rw [hQ] at h
    dsimp only at h
    by_cases hdash : e'.1 = dashes
    · rw [if_pos hdash] at h
      cases h
    · rw [if_neg hdash] at h
      cases hno : isNonoption e' with
      | true =>
        rw [hno, if_pos rfl] at h
        split at h <;> cases h
      | false =>
        rw [hno, if_neg Bool.false_ne_true] at h
        obtain ⟨rfl, rfl⟩ := Look.option.inj h
        exact ⟨rfl, hdash, hno⟩

theorem look_plain {e : CString} {next : List CString} (h : look o R = .plain e next) :
    o = .returnInOrder ∧ R = e :: next ∧ isNonoption e = true := by
  unfold look at h
  cases hQ : pending o R with
  | nil =>
    rw [hQ] at h
    cases h
  | cons e' Q =>
    rw [hQ] at h
    dsimp only at h
    split at h
    · cases h
    · split at h
      · next hno =>
        split at h
        · cases h
        · next hreq =>
          obtain ⟨rfl, rfl⟩ := Look.plain.inj h
          cases o with
          | requireOrder => exact absurd rfl hreq
          | permute => exact absurd (head_pending rfl hQ) (by simp [hno])
          | returnInOrder => exact ⟨rfl, hQ, hno⟩
      · cases h

theorem look_stop {dash left : List CString} (h : look o R = .stop dash left) :
    pending o R = dash ++ left ∧
      ((∃ e, dash = [e] ∧ e.1 = dashes) ∨ dash = [] ∧ (o = .requireOrder ∨ left = [])) := by
  unfold look at h
  cases hQ : pending o R with
  | nil =>
    rw [hQ] at h
    obtain ⟨rfl, rfl⟩ := Look.stop.inj h
    exact ⟨rfl, .inr ⟨rfl, .inr rfl⟩⟩
  | cons e' Q =>
    rw [hQ] at h
    dsimp only at h
    by_cases hdash : e'.1 = dashes
    · rw [if_pos hdash] at h
      obtain ⟨rfl, rfl⟩ := Look.stop.inj h
      exact ⟨rfl, .inl ⟨e', rfl, hdash⟩⟩
    · rw [if_neg hdash] at h
      split at h
      · split at h
        · next hreq =>
          obtain ⟨rfl, rfl⟩ := Look.stop.inj h
          exact ⟨rfl, .inr ⟨rfl, .inl hreq⟩⟩
        · cases h
      · cases h

/-- A step passes over the non-options `skip` and then over the elements `used`. -/
theorem Step.moves (h : Step a o s t s') :
    ∃ skip used, s'.C = s.C ++ used ∧ s'.N = s.N ++ skip ∧ s.R = skip ++ (used ++ s'.R) ∧
      ∀ e ∈ skip, isNonoption e = true := by
  cases h with
  | @short _ _ text C N next e t htext ht =>
    refine ⟨[], (e :: next).take t.taken, rfl, (List.append_nil _).symm, ?_, nofun⟩
    exact (List.take_append_drop _ _).symm
  | @option _ _ C N R next e t hlook ht =>
    refine ⟨skipped o R, (e :: next).take t.taken, rfl, rfl, ?_,
      fun e => nonoption_of_mem_skipped⟩
    show R = skipped o R ++ ((e :: next).take t.taken ++ (e :: next).drop t.taken)
    rw [List.take_append_drop, ← (look_option hlook).1, skipped_append]
  | @plain C N R next e hlook =>
    exact ⟨[], [e], rfl, (List.append_nil _).symm, (look_plain hlook).2.1, nofun⟩

theorem Stop.moves (h : Stop o s C N) :
    ∃ skip dash left, C = s.C ++ dash ∧ N = s.N ++ skip ++ left ∧ s.R = skip ++ (dash ++ left) ∧
      (∀ e ∈ skip, isNonoption e = true) ∧ s.text = [] ∧
      ((∃ e, dash = [e] ∧ e.1 = dashes) ∨ dash = [] ∧ (o = .requireOrder ∨ left = [])) := by
  cases h with
  | @mk C N R dash left hlook =>
    obtain ⟨hpend, hdash⟩ := look_stop hlook
    refine ⟨skipped o R, dash, left, rfl, rfl, ?_, fun e => nonoption_of_mem_skipped, rfl, hdash⟩
    rw [← hpend]
    exact (skipped_append o R).symm

/-! ## Permutations -/

/-- All the elements, where they are. -/
def Scan.elements (s : Scan) : List CString := s.C ++ s.N ++ s.R

theorem perm_moved (C N skip used R : List CString) :
    (C ++ used ++ (N ++ skip) ++ R).Perm (C ++ N ++ (skip ++ (used ++ R))) := by
  simp only [List.append_assoc]
  apply List.Perm.append_left
  have hskip : (used ++ (skip ++ R)).Perm (skip ++ (used ++ R)) :=
    List.perm_append_comm_assoc _ _ _
  exact (List.perm_append_comm_assoc _ _ _).trans (hskip.append_left N)

theorem Step.perm (h : Step a o s t s') : s'.elements.Perm s.elements := by
  obtain ⟨skip, used, hC, hN, hR, -⟩ := h.moves
  unfold Scan.elements
  rw [hC, hN, hR]
  exact perm_moved _ _ _ _ _

theorem Stop.perm (h : Stop o s C N) : (Scan.elements ⟨[], C, [], N⟩).Perm s.elements := by
  obtain ⟨skip, dash, left, rfl, rfl, hR, -⟩ := h.moves
  unfold Scan.elements
  rw [hR, List.append_nil]
  simpa using perm_moved s.C s.N skip dash left

theorem At.perm (h : At a front post argv d s) :
    argv.Perm (front ++ (s.elements.map some ++ post)) := by
  obtain ⟨P, D, hl, hC⟩ := h.layout
  rw [hl.argv, Scan.elements, ← hC]
  apply List.Perm.append_left
  simp only [List.map_append, List.append_assoc]
  apply List.Perm.append_left
  exact List.perm_append_comm_assoc _ _ _

theorem Ready.perm (h : Ready a front post argv d s) :
    argv.Perm (front ++ (s.elements.map some ++ post)) := by
  obtain ⟨d', -, -, hat⟩ := h
  exact hat.perm

/-- `argv` is a permutation of what it was, however often `getopt` is called. -/
theorem calls_perm (hm : NoMinusOne a) (h : Ready a front post argv d s) (ms : List Bool) :
    ∃ outs, calls a ms argv d = some outs ∧
      ∀ o ∈ outs, o.1.argv.Perm (front ++ (s.elements.map some ++ post)) := by
  induction ms generalizing argv d s with
  | nil => exact ⟨[], rfl, fun o ho => absurd ho List.not_mem_nil⟩
  | cons mallocOk ms ih =>
    have hout := h.outcome mallocOk fun _ _ _ _ => hm.not_minusOne
    have hnext : ∃ o s', getoptInternalR a mallocOk argv d = some o ∧
        At a front post o.1.argv o.1.data s' ∧ s'.elements.Perm s.elements := by
      generalize getoptInternalR a mallocOk argv d = call at hout ⊢
      cases hout with
      | stop hstop hat => exact ⟨_, _, rfl, hat, hstop.perm⟩
      | step hstep hat => exact ⟨_, _, rfl, hat, hstep.perm⟩
    obtain ⟨o, s', hcall, hat, hperm⟩ := hnext
    obtain ⟨outs, houts, ih⟩ := ih hat.ready
    have hall : (front ++ (s'.elements.map some ++ post)).Perm
        (front ++ (s.elements.map some ++ post)) :=
      ((hperm.map some).append_right post).append_left front
    refine ⟨o :: outs, ?_, fun o' ho' => ?_⟩
    · unfold calls
      rw [hcall, Option.bind_eq_bind, Option.bind_some, houts]
      rfl
    · apply List.Perm.trans ?_ hall
      rcases List.mem_cons.mp ho' with rfl | hmem
      · exact hat.perm
      · exact ih o' hmem

/-! ## The end of the scan -/

/-- The caller gets from the call `o` what the option `t` gives. -/
structure Reports (t : Taken) (o : World × Int) : Prop where
  ret : o.2 = t.ret
  optarg : o.1.data.optarg = t.optarg
  diag : o.1.diag = t.diag

theorem Step.ret_ne (hm : NoMinusOne a) (h : Step a o s t s') : t.ret ≠ -1 := by
  cases h with
  | short htext ht => exact hm.takeShort_ret ht
  | option hlook ht => exact hm.takeOption_ret ht
  | plain hlook => exact show (1 : Int) ≠ -1 by decide

/-- The calls before the first -1 are the steps of the scanner, and this one is its end. -/
theorem calls_ends (hm : NoMinusOne a) {w : World} {rest : List (World × Int)} :
    ∀ (pre : List (World × Int)) {ms : List Bool} {argv : List (Option CString)} {d : GetoptData}
      {s : Scan}, Ready a front post argv d s →
      calls a ms argv d = some (pre ++ (w, -1) :: rest) → (∀ o ∈ pre, o.2 ≠ -1) →
      ∃ ts s' C N, Steps a a.ordering s ts s' ∧ Stop a.ordering s' C N ∧
        List.Forall₂ Reports ts pre ∧ At a front post w.argv w.data ⟨[], C, [], N⟩ ∧
        w.data.optarg = none := by
  intro pre
  induction pre with
  | nil =>
    intro ms argv d s h hcalls _
    cases ms with
    | nil => cases hcalls
    | cons mallocOk ms =>
      obtain ⟨o, outs', hcall, -, heq⟩ := calls_cons hcalls
      obtain ⟨rfl, -⟩ := List.cons.inj heq
      have hout := h.outcome mallocOk fun _ _ _ _ => hm.not_minusOne
      rw [hcall] at hout
      generalize hw : (w, (-1 : Int)) = o at hout
      cases hout with
      | stop hstop hat hoptarg =>
        obtain ⟨rfl, -⟩ := Prod.mk.inj hw
        exact ⟨[], s, _, _, .nil s, hstop, .nil, hat, hoptarg⟩
      | step hstep =>
        obtain ⟨-, hret⟩ := Prod.mk.inj hw
        exact absurd hret.symm (hstep.ret_ne hm)
  | cons o pre ih =>
    intro ms argv d s h hcalls hpre
    cases ms with
    | nil => cases hcalls
    | cons mallocOk ms =>
      obtain ⟨o', outs', hcall, hrest, heq⟩ := calls_cons hcalls
      obtain ⟨rfl, rfl⟩ := List.cons.inj heq
      have hout := h.outcome mallocOk fun _ _ _ _ => hm.not_minusOne
      rw [hcall] at hout
      have ho : o.2 ≠ -1 := hpre o List.mem_cons_self
      cases hout with
      | stop hstop hat => exact absurd rfl ho
      | step hstep hat hclamp hoptarg hdiag =>
        obtain ⟨ts, s', C, N, hsteps, hstop, hreports, hend⟩ :=
          ih hat.ready hrest fun o' ho' => hpre o' (List.mem_cons_of_mem _ ho')
        exact ⟨_ :: ts, s', C, N, .cons hstep hsteps, hstop,
          .cons ⟨rfl, hoptarg, hdiag⟩ hreports, hend⟩

theorem Steps.interleaved {ts : List Taken} {done : List CString} (h : Steps a o s ts s')
    (hs : Interleaved s.C s.N done) :
    ∃ new, Interleaved s'.C s'.N (done ++ new) ∧ s.R = new ++ s'.R := by
  induction h generalizing done with
  | nil s => exact ⟨[], by rwa [List.append_nil], rfl⟩
  | cons hstep _ ih =>
    obtain ⟨skip, used, hC, hN, hR, -⟩ := hstep.moves
    have hnext := hs.extend used skip
    rw [← hC, ← hN] at hnext
    obtain ⟨new, hnew, hR'⟩ := ih hnext
    refine ⟨skip ++ used ++ new, ?_, ?_⟩
    · simpa using hnew
    · rw [hR, hR']
      simp

theorem Stop.interleaved {done : List CString} (h : Stop o s C N)
    (hs : Interleaved s.C s.N done) : Interleaved C N (done ++ s.R) := by
  obtain ⟨skip, dash, left, rfl, rfl, hR, -⟩ := h.moves
  have hnext := (hs.extend dash skip).append (Interleaved.of_right left)
  rw [List.append_nil] at hnext
  rw [hR]
  simpa using hnext

/-- Where the options and the other elements are at the end. -/
theorem At.final (h : At a front post argv d ⟨[], C, [], N⟩) :
    argv = front ++ (C.map some ++ (N.map some ++ post)) ∧
      d.optind = front.length + C.length ∧ a.argc = d.optind + N.length := by
  obtain ⟨P, D, ⟨hargv, hfirst, hlast, hoptind, hargc⟩, hC⟩ := h.layout
  have hkeep : (clampNonopts d).optind = d.optind := by rw [clampNonopts_keeps]
  rw [hkeep] at hoptind hargc
  dsimp only at hargv hlast hC hargc
  refine ⟨?_, ?_, hargc⟩
  · rw [hargv, ← hC]
    simp
  · rw [hoptind, hlast, hfirst, ← hC, List.length_append, List.length_nil]
    omega

/-- What is in front of `optind` behind the program name, and what is from there on. -/
theorem At.slices (h : At a front post argv d ⟨[], C, [], N⟩) :
    (argv.take d.optind).drop front.length = C.map some ∧
      (argv.take a.argc).drop d.optind = N.map some := by
  obtain ⟨hargv, hind, hargc⟩ := h.final
  have hC : (front ++ C.map some).length = d.optind := by
    rw [List.length_append, List.length_map, hind]
  have hN : (front ++ C.map some ++ N.map some).length = a.argc := by
    rw [List.length_append, hC, List.length_map, hargc]
  rw [← List.append_assoc] at hargv
  refine ⟨?_, ?_⟩
  · rw [hargv, List.take_left' hC, List.drop_left]
  · rw [hargv, ← List.append_assoc, List.take_left' hN, List.drop_left' hC]

/-! ## The whole run -/

/-- The state of a program that has not called `getopt` yet, or that has set `optind` to 0. -/
def Fresh (d : GetoptData) : Prop := d.optind = 0 ∨ d.optind = 1 ∧ d.initialized = false

theorem Fresh.start (h : Fresh d) : (if d.optind = 0 then 1 else d.optind) = 1 := by
  rcases h with h | h
  · rw [if_pos h]
  · rw [if_neg (by rw [h.1]; decide), h.1]

/-- Without arguments each call returns -1 and does nothing. -/
theorem calls_argc_zero (h : a.argc < 1) (ms : List Bool) :
    calls a ms argv d = some (ms.map fun _ => (World.start argv d, -1)) := by
  induction ms with
  | nil => rfl
  | cons mallocOk ms ih =>
    have hcall : getoptInternalR a mallocOk argv d = some (World.start argv d, -1) := if_pos h
    simp [calls, hcall, ih]

/-- Without arguments the first call is the end, and nothing is in front of `optind`. -/
theorem calls_argc_zero_ends {pre rest : List (World × Int)} {w : World} {ms : List Bool}
    (houts : (ms.map fun _ => (World.start argv d, (-1 : Int))) = pre ++ (w, -1) :: rest)
    (hpre : ∀ o ∈ pre, o.2 ≠ -1) :
    pre = [] ∧ w = World.start argv d := by
  cases ms with
  | nil => exact absurd houts (by simp)
  | cons mallocOk ms =>
    cases pre with
    | nil =>
      obtain ⟨hw, -⟩ := List.cons.inj houts
      exact ⟨rfl, (congrArg Prod.fst hw).symm⟩
    | cons o pre =>
      obtain ⟨rfl, -⟩ := List.cons.inj houts
      exact absurd rfl (hpre _ List.mem_cons_self)

/-- The first call of a run begins behind the program name. -/
theorem ready_argv {elems : List CString} (hargc : 1 ≤ a.argc) (hlen : a.argc ≤ argv.length)
    (helems : (argv.take a.argc).drop 1 = elems.map some) (hfresh : Fresh d) :
    Ready a (argv.take 1) (argv.drop a.argc) argv d ⟨[], [], [], elems⟩ := by
  obtain ⟨hargv, hcount, hfront⟩ := split_argv hargc hlen helems
  exact ready_fresh (hfresh.imp id And.right) hargv hcount (hfront.trans hfresh.start.symm)

theorem ordering_permute (hminus : a.optstring.1.head? ≠ some 45)
    (hplus : a.optstring.1.head? ≠ some 43) (hposix : a.posixlyCorrect = false)
    (henv : a.posixlyEnv = false) : a.ordering = .permute := by
  unfold Args.ordering chooseOrdering
  rw [if_neg hminus, if_neg hplus, if_neg (by simp [hposix, henv])]

/-- The permutation is stable and exact: when the scan ends, the options that the calls have
    handled, with their arguments and `--`, are in front of `optind`, and all other elements from
    there on, both in their order. -/
theorem permutation_stable {elems : List CString} (hlen : a.argc ≤ argv.length)
    (helems : (argv.take a.argc).drop 1 = elems.map some)
    (hminus : a.optstring.1.head? ≠ some 45) (hplus : a.optstring.1.head? ≠ some 43)
    (hposix : a.posixlyCorrect = false) (henv : a.posixlyEnv = false) (hfresh : Fresh d)
    (hm : NoMinusOne a) (ms : List Bool) :
    ∃ outs, calls a ms argv d = some outs ∧ (∀ o ∈ outs, o.1.argv.Perm argv) ∧
      ∀ pre w rest, outs = pre ++ (w, -1) :: rest → (∀ o ∈ pre, o.2 ≠ -1) →
        ∃ ts s C N, Steps a .permute ⟨[], [], [], elems⟩ ts s ∧ Stop .permute s C N ∧
          List.Forall₂ Reports ts pre ∧ Interleaved C N elems ∧
          (w.argv.take w.data.optind).drop 1 = C.map some ∧
          (w.argv.take a.argc).drop w.data.optind = N.map some := by
  by_cases hargc : a.argc < 1
  · refine ⟨_, calls_argc_zero hargc ms, fun o ho => ?_, fun pre w rest houts hpre => ?_⟩
    · obtain ⟨_, -, rfl⟩ := List.mem_map.mp ho
      exact .refl argv
    · obtain ⟨rfl, rfl⟩ := calls_argc_zero_ends houts hpre
      have hargc0 : a.argc = 0 := by omega
      obtain rfl : elems = [] := by
        rw [hargc0] at helems
        exact List.map_eq_nil_iff.mp helems.symm
      refine ⟨[], _, [], [], .nil _, .mk rfl, .nil, .nil, ?_, ?_⟩
      · apply List.drop_eq_nil_of_le
        rw [List.length_take]
        have hle : d.optind ≤ 1 := by
          rcases hfresh with h0 | h1
          · omega
          · exact Nat.le_of_eq h1.1
        exact Nat.le_trans (Nat.min_le_left _ _) hle
      · rw [hargc0]
        exact List.drop_nil
  · have hready := ready_argv (Nat.le_of_not_lt hargc) hlen helems hfresh
    obtain ⟨outs, houts, hperm⟩ := calls_perm hm hready ms
    refine ⟨outs, houts, fun o ho => (hperm o ho).trans hready.perm.symm, ?_⟩
    rintro pre w rest rfl hpre
    obtain ⟨ts, s, C, N, hsteps, hstop, hreports, hend, -⟩ := calls_ends hm pre hready houts hpre
    rw [ordering_permute hminus hplus hposix henv] at hsteps hstop
    obtain ⟨new, hnew, hR⟩ := hsteps.interleaved Interleaved.nil
    have hall := hstop.interleaved hnew
    rw [List.nil_append, ← hR] at hall
    have hfront : (argv.take 1).length = 1 := by
      rw [List.length_take]
      omega
    refine ⟨ts, s, C, N, hsteps, hstop, hreports, hall, ?_, ?_⟩
    · rw [← hend.slices.1, hfront]
    · exact hend.slices.2

/-- The option `a`, which takes an argument. -/
def argOption : Args :=
  { argc := 5, optstring := ⟨[97, 58], by decide⟩, longopts := none, longind := false,
    longOnly := false, posixlyCorrect := false, posixlyEnv := false }

def freshData : GetoptData :=
  { optind := 1, opterr := true, optopt := question, optarg := none, initialized := false,
    nextchar := none, ordering := .requireOrder, firstNonopt := 0, lastNonopt := 0 }

/-- `x -a y z` -/
def argOptionElems : List CString :=
  [⟨[120], by decide⟩, ⟨[45, 97], by decide⟩, ⟨[121], by decide⟩, ⟨[122], by decide⟩]

def programName : Option CString := some ⟨[112], by decide⟩

theorem permutation_stable_argOption :
    ∃ o w, calls argOption [true, true] (programName :: argOptionElems.map some) freshData =
        some [o, (w, -1)] ∧ w.argv.Perm (programName :: argOptionElems.map some) ∧
      ∃ C N, Interleaved C N argOptionElems ∧
        (w.argv.take w.data.optind).drop 1 = C.map some ∧
        (w.argv.take 5).drop w.data.optind = N.map some := by
  obtain ⟨outs, houts, hperm, hends⟩ := @permutation_stable argOption
    (programName :: argOptionElems.map some) freshData argOptionElems (by decide) rfl (by decide)
    (by decide) rfl rfl (.inr ⟨rfl, rfl⟩) ⟨nofun, by decide⟩ [true, true]
  obtain ⟨o, w, hrun, ho⟩ : ∃ o w, calls argOption [true, true]
      (programName :: argOptionElems.map some) freshData = some [o, (w, -1)] ∧ o.2 ≠ -1 :=
    ⟨_, _, rfl, by decide⟩
  obtain rfl : outs = [o, (w, -1)] := Option.some.inj (houts.symm.trans hrun)
  obtain ⟨ts, s, C, N, -, -, -, hall⟩ := hends [o] w [] rfl (by simpa using ho)
  exact ⟨o, w, hrun, hperm (w, -1) (by simp), C, N, hall⟩

/-- The long option `x` without `flag`, whose value is -1. -/
def minusOneOption : Args :=
  { argc := 4, optstring := ⟨[], by decide⟩, longopts := some [⟨⟨[120], by decide⟩, 0, none, -1⟩],
    longind := false, longOnly := false, posixlyCorrect := false, posixlyEnv := false }

/-- `a --x b` -/
def minusOneElems : List CString :=
  [⟨[97], by decide⟩, ⟨[45, 45, 120], by decide⟩, ⟨[98], by decide⟩]

/-- The option `--x` is returned as -1: the scan is not at its end, and the non-option `a` is in
    front of `optind`. -/
theorem matched_minusOne_ends :
    ∃ w, calls minusOneOption [true] (programName :: minusOneElems.map some) freshData =
        some [(w, -1)] ∧
      (w.argv.take w.data.optind).drop 1 = (minusOneElems.take 2).map some ∧
      ¬ ∃ ts s C N, Steps minusOneOption .permute ⟨[], [], [], minusOneElems⟩ ts s ∧
        Stop .permute s C N ∧ List.Forall₂ Reports ts [] ∧ Interleaved C N minusOneElems ∧
        (w.argv.take w.data.optind).drop 1 = C.map some ∧
        (w.argv.take 4).drop w.data.optind = N.map some := by
  refine ⟨_, rfl, rfl, ?_⟩
  rintro ⟨ts, s, C, N, hsteps, hstop, hreports, -⟩
  cases hreports
  cases hsteps
  have hlook : look .permute minusOneElems =
      .option ⟨[45, 45, 120], by decide⟩ [⟨[98], by decide⟩] := rfl
  cases hstop with
  | mk h =>
    rw [hlook] at h
    cases h

end Librecompat.Getopt
