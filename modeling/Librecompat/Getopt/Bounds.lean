/-
  The indices stay in bounds, and the scan comes to an end.

  The measure of a state of the scanner is the number of the elements to come and of their
  characters, less the characters of the current element that are behind. Every step decreases it
  (`Step.measure_lt`). Nothing is proved of a run behind a call that takes the value of a long
  option for "not a long option" (`Misread`): `misread_faults` is a run in which that happens.
-/
import Librecompat.Getopt.Permute

namespace Librecompat.Getopt

variable {a : Args} {front post argv : List (Option CString)} {d : GetoptData} {s s' : Scan}
  {t : Taken} {o : Order} {text : Str} {C N R : List CString} {e : CString} {next : List CString}

/-! ## The measure -/

/-- The number of the elements and of their characters. -/
def weight (R : List CString) : Nat := (R.map fun e => e.1.length + 1).sum

theorem weight_cons (e : CString) (R : List CString) :
    weight (e :: R) = e.1.length + 1 + weight R := by
  simp [weight]

theorem weight_append (R R' : List CString) : weight (R ++ R') = weight R + weight R' := by
  simp [weight]

theorem weight_drop_le (R : List CString) (k : Nat) : weight (R.drop k) ≤ weight R := by
  conv => rhs; rw [← List.take_append_drop k R, weight_append]
  exact Nat.le_add_left _ _

def Scan.measure (s : Scan) : Nat :=
  if s.text = [] then weight s.R else s.text.length + weight s.R.tail

/-- An option leaves less than its element, or less of it. -/
theorem Advances.measure_lt (h : Advances text next t) {n : Nat} (htext : text.length ≤ n)
    (hn : 0 < n) :
    (Scan.mk (t.nextchar.getD []) C N ((e :: next).drop t.taken)).measure < n + weight next := by
  unfold Scan.measure
  dsimp only
  cases hk : t.taken with
  | zero =>
    obtain ⟨c, hc, hne⟩ := h.inside hk
    have hlen := congrArg List.length hc
    rw [List.length_cons] at hlen
    rw [if_neg hne, List.drop_zero, List.tail_cons]
    omega
  | succ k =>
    have hle := weight_drop_le next k
    rw [if_pos (h.boundary (hk ▸ Nat.succ_pos k)), List.drop_succ_cons]
    omega

theorem weight_pending_le (o : Order) (R : List CString) : weight (pending o R) ≤ weight R := by
  conv => rhs; rw [← skipped_append o R, weight_append]
  exact Nat.le_add_left _ _

theorem Step.measure_lt (h : Step a o s t s') : s'.measure < s.measure := by
  cases h with
  | @short _ _ text C N next e _ htext ht =>
    have hlt := (takeShort_advances ht).measure_lt (C := C ++ (e :: next).take t.taken) (N := N)
      (e := e) (Nat.le_refl text.length) (List.length_pos_iff.mpr htext)
    rwa [← show Scan.measure ⟨text, C, N, e :: next⟩ = text.length + weight next from
      if_neg htext] at hlt
  | @option _ _ C N R next e _ hlook ht =>
    have hlt := (takeOption_advances ht).measure_lt (C := C ++ (e :: next).take t.taken)
      (N := N ++ skipped o R) (e := e) (n := e.1.length + 1)
      (by rw [List.length_tail]; omega) (Nat.succ_pos _)
    have hle := weight_pending_le o R
    rw [(look_option hlook).1, weight_cons] at hle
    exact Nat.lt_of_lt_of_le hlt hle
  | @plain C N R next e hlook =>
    show weight next < weight R
    rw [(look_plain hlook).2.1, weight_cons]
    omega

/-! ## The indices -/

structure InBounds (a : Args) (d : GetoptData) : Prop where
  first : 1 ≤ d.firstNonopt
  last : d.firstNonopt ≤ d.lastNonopt
  optind : d.lastNonopt ≤ d.optind
  argc : d.optind ≤ a.argc

theorem At.inBounds (h : At a front post argv d s) (hclamp : clampNonopts d = d) :
    InBounds a d := by
  obtain ⟨P, D, hl, -⟩ := h.layout
  rw [hclamp] at hl
  have hfront := h.front
  have hfirst := hl.first
  have hlast := hl.last
  have hoptind := hl.optind
  have hargc := hl.argc
  exact ⟨by omega, by omega, by omega, by omega⟩

/-! ## Runs -/

/-- The caller's loop: calls until one returns -1, each with an outcome of `malloc`. -/
def untilEnd (a : Args) :
    List Bool → List (Option CString) → GetoptData → Option (List (World × Int))
  | [], _, _ => some []
  | mallocOk :: ms, argv, d => do
    let o ← getoptInternalR a mallocOk argv d
    if o.2 = -1 then some [o]
    else
      let outs ← untilEnd a ms o.1.argv o.1.data
      some (o :: outs)

/-- The call goes on to an element with a single dash that names a long option with the value -1 and
    no `flag` (see `MinusOne`). -/
def Misread (a : Args) (argv : List (Option CString)) (d : GetoptData) : Prop :=
  (prepare a d).1.nextchar.getD [] = [] ∧
    ∃ R e next, (argv.take a.argc).drop (prepare a d).1.optind = R.map some ∧
      look (prepare a d).1.ordering R = .option e next ∧ MinusOne a a.shortopts e next

/-- No call of the caller's loop misreads an element. -/
def NoMisread (a : Args) : List Bool → List (Option CString) → GetoptData → Prop
  | [], _, _ => True
  | mallocOk :: ms, argv, d =>
    ¬ Misread a argv d ∧ ∀ w ret, getoptInternalR a mallocOk argv d = some (w, ret) → ret ≠ -1 →
      NoMisread a ms w.argv w.data

/-- Where no option has the value -1, no call misreads an element. -/
theorem NoMinusOne.noMisread (hm : NoMinusOne a) (ms : List Bool) : NoMisread a ms argv d := by
  induction ms generalizing argv d with
  | nil => exact trivial
  | cons mallocOk ms ih => exact ⟨fun ⟨_, _, _, _, _, _, h⟩ => hm.not_minusOne h, fun _ _ _ _ => ih⟩

/-- The elements that are still to come. -/
theorem Layout.to_come {P D : List CString} (h : Layout a argv d front P N D R post) :
    (argv.take a.argc).drop d.optind = R.map some := by
  obtain ⟨hargv, hfirst, hlast, hoptind, hargc⟩ := h
  have hlen : (front ++ (P.map some ++ (N.map some ++ D.map some))).length = d.optind := by
    simp only [List.length_append, List.length_map]
    omega
  have hall : (front ++ (P.map some ++ (N.map some ++ D.map some)) ++ R.map some).length =
      a.argc := by
    rw [List.length_append, hlen, List.length_map, hargc]
  have hsplit : argv = front ++ (P.map some ++ (N.map some ++ D.map some)) ++ R.map some ++ post := by
    rw [hargv]
    simp
  rw [hsplit, List.take_left' hall, List.drop_left' hlen]

theorem Ready.not_minusOne (h : Ready a front post argv d s) (hgood : ¬ Misread a argv d)
    {e : CString} {next : List CString} (htext : s.text = [])
    (hlook : look a.ordering s.R = .option e next) : ¬ MinusOne a a.shortopts e next := by
  intro hm
  obtain ⟨d', hprep, -, hat⟩ := h
  obtain ⟨P, D, hl, -⟩ := hat.layout
  have hcome := hl.to_come
  have hkeep : (clampNonopts d').optind = d'.optind := by rw [clampNonopts_keeps]
  rw [hkeep] at hcome
  refine hgood ⟨?_, s.R, e, next, ?_, ?_, hm⟩
  · rw [hprep]
    exact hat.text.trans htext
  · rw [hprep]
    exact hcome
  · rw [hprep, hat.ordering]
    exact hlook

theorem untilEnd_inBounds {ms : List Bool} (h : Ready a front post argv d s)
    (hgood : NoMisread a ms argv d) :
    ∃ outs, untilEnd a ms argv d = some outs ∧ (∀ o ∈ outs, o.2 ≠ -1 → InBounds a o.1.data) ∧
      (outs.filter (·.2 ≠ -1)).length ≤ s.measure ∧
      (s.measure < ms.length → ∃ o ∈ outs, o.2 = -1) := by
  induction ms generalizing argv d s with
  | nil => exact ⟨[], rfl, fun o ho => absurd ho List.not_mem_nil, Nat.zero_le _, nofun⟩
  | cons mallocOk ms ih =>
    obtain ⟨hgood, hrest⟩ := hgood
    have hout := h.outcome mallocOk fun e next => h.not_minusOne hgood
    generalize hcall : getoptInternalR a mallocOk argv d = call at hout
    -- a call that returns -1 is the last one
    have hend : ∀ w, call = some (w, -1) → ∃ outs, untilEnd a (mallocOk :: ms) argv d = some outs ∧
        (∀ o ∈ outs, o.2 ≠ -1 → InBounds a o.1.data) ∧
        (outs.filter (·.2 ≠ -1)).length ≤ s.measure ∧
        (s.measure < (mallocOk :: ms).length → ∃ o ∈ outs, o.2 = -1) := by
      intro w hw
      rw [hw] at hcall
      refine ⟨[(w, -1)], ?_, ?_, Nat.zero_le _, fun _ => ⟨_, List.mem_singleton_self _, rfl⟩⟩
      · unfold untilEnd
        rw [hcall]
        rfl
      · intro o ho hne
        rw [List.mem_singleton.mp ho] at hne
        exact absurd rfl hne
    cases hout with
    | @stop w C N hstop hat => exact hend w rfl
    | @step w t s' hstep hat hclamp =>
      by_cases hret : t.ret = -1
      · exact hend w (by rw [hret])
      · obtain ⟨outs, houts, hbounds, hcount, hmany⟩ := ih hat.ready (hrest w t.ret hcall hret)
        have hlt := hstep.measure_lt
        refine ⟨(w, t.ret) :: outs, ?_, ?_, ?_, ?_⟩
        · unfold untilEnd
          rw [hcall, Option.bind_eq_bind, Option.bind_some, if_neg hret, houts]
          rfl
        · intro o ho hne
          rcases List.mem_cons.mp ho with rfl | hmem
          · exact hat.inBounds hclamp
          · exact hbounds o hmem hne
        · rw [List.filter_cons_of_pos (by simpa using hret), List.length_cons]
          omega
        · intro hms
          rw [List.length_cons] at hms
          obtain ⟨o, ho, heq⟩ := hmany (by omega)
          exact ⟨o, List.mem_cons_of_mem _ ho, heq⟩

/-- As long as no call misreads an element, no call reads behind `argc` elements or through a null
    pointer, the indices are in bounds after every call that does not return -1, and there are at
    most as many of these as elements and characters. -/
theorem getopt_inBounds {elems : List CString} (hargc : 1 ≤ a.argc) (hlen : a.argc ≤ argv.length)
    (helems : (argv.take a.argc).drop 1 = elems.map some) (hind : d.optind ≤ a.argc)
    (hfresh : d.optind = 0 ∨ d.initialized = false) (ms : List Bool)
    (hgood : NoMisread a ms argv d) :
    ∃ outs, untilEnd a ms argv d = some outs ∧ (∀ o ∈ outs, o.2 ≠ -1 → InBounds a o.1.data) ∧
      (outs.filter (·.2 ≠ -1)).length ≤ weight elems ∧
      (weight elems < ms.length → ∃ o ∈ outs, o.2 = -1) := by
  obtain ⟨k, hk, hstart⟩ : ∃ k, (if d.optind = 0 then 1 else d.optind) = k + 1 ∧ k + 1 ≤ a.argc := by
    by_cases h0 : d.optind = 0
    · exact ⟨0, if_pos h0, hargc⟩
    · exact ⟨d.optind - 1, by rw [if_neg h0]; omega, by omega⟩
  have hR : (argv.take a.argc).drop (k + 1) = (elems.drop k).map some := by
    rw [Nat.add_comm, ← List.drop_drop, helems, List.map_drop]
  obtain ⟨hargv, hcount, hfront⟩ := split_argv hstart hlen hR
  have hready := ready_fresh hfresh hargv hcount (hfront.trans hk.symm)
  obtain ⟨outs, houts, hbounds, hfew, hmany⟩ := untilEnd_inBounds hready hgood
  have hle : Scan.measure ⟨[], [], [], elems.drop k⟩ ≤ weight elems := weight_drop_le elems k
  exact ⟨outs, houts, hbounds, Nat.le_trans hfew hle,
    fun h => hmany (Nat.lt_of_le_of_lt hle h)⟩

theorem getopt_inBounds_argOption :
    ∃ outs, untilEnd argOption (List.replicate 10 true) (programName :: argOptionElems.map some)
        freshData = some outs ∧ (∀ o ∈ outs, o.2 ≠ -1 → InBounds argOption o.1.data) ∧
      ∃ o ∈ outs, o.2 = -1 := by
  have hm : NoMinusOne argOption := ⟨nofun, by decide⟩
  obtain ⟨outs, houts, hbounds, -, hmany⟩ := @getopt_inBounds argOption
    (programName :: argOptionElems.map some) freshData argOptionElems (by decide) (by decide) rfl
    (by decide) (.inr rfl) (List.replicate 10 true) (hm.noMisread _)
  exact ⟨outs, houts, hbounds, hmany (by decide)⟩

/-- The long option `ab` without `flag`, whose value is -1, which a single dash introduces, too. -/
def minusOneLongOnly : Args :=
  { minusOneOption with
    argc := 2, longopts := some [⟨⟨[97, 98], by decide⟩, 0, none, -1⟩], longOnly := true }

/-- Over `-ab` the first call goes through the null pointer behind the elements. -/
theorem misread_faults :
    ¬ ∃ outs, untilEnd minusOneLongOnly (List.replicate 5 true)
        [programName, some ⟨[45, 97, 98], by decide⟩, none] freshData = some outs ∧
      (∀ o ∈ outs, o.2 ≠ -1 → InBounds minusOneLongOnly o.1.data) ∧ ∃ o ∈ outs, o.2 = -1 := by
  rintro ⟨outs, houts, -⟩
  have hnone : untilEnd minusOneLongOnly (List.replicate 5 true)
      [programName, some ⟨[45, 97, 98], by decide⟩, none] freshData = none := rfl
  exact absurd (hnone.symm.trans houts) nofun

end Librecompat.Getopt
