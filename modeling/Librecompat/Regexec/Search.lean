/-
  What `re_search_internal` finds.

  Places where no match starts are passed by the fastmap, by `check_matching` while the initial
  state is the current one, or one by one (`Passed`): so the match that is found is the first one in
  the direction of the search (`First`). Its end is right too. But its start is moved on with
  `next_start_idx` if it is the empty match at the place where the matcher has started (`Found`):
  behind it, up to where it is said to start, no match starts.
-/
import Librecompat.Regexec.Fastmap

namespace Librecompat.Regexec

open Librecompat.Lib Librecompat.NodeSet Librecompat.Regcomp
open Librecompat.Regex

variable (src : Source) (loc : Regcomp.Locale) (syn : RegSyntax) (c : Compiled)

/-- A match starts at `i` that ends at the stop or before it. -/
def Start (i : Nat) : Prop := ∃ j ≤ max i src.rawStop.toNat, Matches src loc syn c i j

/-- The fastmap, if there is one, has what a match starts with. -/
def Plausible (fastmap : Option (UInt8 → Bool)) : Prop :=
  ∀ map, fastmap = some map → ∀ i, Start src loc syn c i →
    ∃ ch, src.firstByte i = some ch ∧ src.mayStart map ch = true

/-- Of the places from `lo` to `hi` those that come before `i`. -/
def Before (forward : Bool) (lo hi i i' : Nat) : Prop :=
  lo ≤ i' ∧ i' ≤ hi ∧ if forward then i' < i else i < i'

/-- The first place where a match starts. -/
structure First (forward : Bool) (lo hi i : Nat) : Prop where
  le : lo ≤ i ∧ i ≤ hi
  start : Start src loc syn c i
  none : ∀ i', Before forward lo hi i i' → ¬ Start src loc syn c i'

/-- The longest match at `i`. -/
structure Longest (i j : Nat) : Prop where
  isMatch : Matches src loc syn c i j
  le : j ≤ max i src.rawStop.toNat
  max : ∀ j' ≤ max i src.rawStop.toNat, Matches src loc syn c i j' → j' ≤ j

/-- What is reported is the longest match at the first place, `k` places further on. If `k` is not
    zero, it is the empty match, no match starts at these places, and the first character leads
    back to the state that a match starts in. -/
def Found (forward : Bool) (lo hi : Nat) (so eo : Int) : Prop :=
  ∃ i j k : Nat, so = (i : Int) + k ∧ eo = (j : Int) + k ∧
    First src loc syn c forward lo hi i ∧ Longest src loc syn c i j ∧
    (k ≠ 0 → j = i ∧ i + k ≤ src.rawStop.toNat ∧ Loops src loc syn c i ∧
      ∀ l, 0 < l → l ≤ k → ¬ Start src loc syn c (i + l))

variable {src loc syn c} {map : UInt8 → Bool}

/-! ## The fastmap -/

theorem firstByte_of_lt {i : Nat} (h : i < src.rawMbs.length) :
    src.firstByte i = some src.rawMbs[i] := by
  rw [Source.firstByte, if_neg (by omega), getAt_natCast, List.getElem?_eq_getElem h]

theorem exists_firstByte (src : Source) (i : Nat) : ∃ ch, src.firstByte i = some ch := by
  by_cases h : i < src.rawMbs.length
  · exact ⟨_, firstByte_of_lt h⟩
  · exact ⟨0, if_pos (by omega)⟩

/-- A place is passed because of its character. -/
theorem Plausible.not_start (h : Plausible src loc syn c (some map)) {i : Nat} {ch : UInt8}
    (hch : src.firstByte i = some ch) (hno : src.mayStart map ch = false) :
    ¬ Start src loc syn c i := by
  intro hstart
  obtain ⟨ch', hch', hyes⟩ := h map rfl i hstart
  obtain rfl := Option.some.inj (hch.symm.trans hch')
  rw [hno] at hyes
  cases hyes

/-- Forwards from `f` no match starts before `x`. -/
def PassedForward (src : Source) (loc : Regcomp.Locale) (syn : RegSyntax) (c : Compiled) (f hi : Nat)
    (x : Int) : Prop :=
  ∃ f' : Nat, x = f' ∧ f ≤ f' ∧ f' ≤ hi ∧ ∀ i, f ≤ i → i < f' → ¬ Start src loc syn c i

theorem skipForwardPass_spec (h : Plausible src loc syn c (some map)) {f hi : Nat}
    (hhi : hi ≤ src.rawMbs.length) (x : Int) (hx : PassedForward src loc syn c f hi x) :
    (∃ x', skipForwardPass src map hi x = some (.inl x') ∧ PassedForward src loc syn c f hi x' ∧
      (hi - x').toNat < (hi - x).toNat) ∨
    ∃ x', skipForwardPass src map hi x = some (.inr x') ∧ PassedForward src loc syn c f hi x' := by
  obtain ⟨f', rfl, hle, hle', hpassed⟩ := hx
  unfold skipForwardPass
  by_cases hlt : f' < hi
  · have hbyte := firstByte_of_lt (by omega : f' < src.rawMbs.length)
    have hget : getAt src.rawMbs f' = some src.rawMbs[f'] := by
      rw [getAt_natCast, List.getElem?_eq_getElem]
    rw [if_pos (Int.ofNat_lt.mpr hlt), hget]
    simp only [Option.bind_eq_bind, Option.bind_some]
    cases hno : src.mayStart map src.rawMbs[f'] with
    | false =>
      refine .inl ⟨_, rfl, ⟨f' + 1, rfl, by omega, hlt, fun i hi hi' => ?_⟩, by omega⟩
      by_cases heq : i = f'
      · exact heq ▸ h.not_start hbyte hno
      · exact hpassed i hi (by omega)
    | true => exact .inr ⟨_, rfl, f', rfl, hle, hle', hpassed⟩
  · exact .inr ⟨_, if_neg (by omega), f', rfl, hle, hle', hpassed⟩

/-- Forwards from `f` the fastmap passes places where no match starts. -/
theorem skipForward_spec (h : Plausible src loc syn c (some map)) {f hi : Nat} (hf : f ≤ hi)
    (hhi : hi ≤ src.rawMbs.length) :
    ∃ r, skipForward src map hi f = some r ∧
      ((r = none ∧ ∀ i, f ≤ i → i ≤ hi → ¬ Start src loc syn c i) ∨
        ∃ f' : Nat, r = some (f' : Int) ∧ f ≤ f' ∧ f' ≤ hi ∧
          ∀ i, f ≤ i → i < f' → ¬ Start src loc syn c i) := by
  obtain ⟨x, hloop, f', rfl, hle, hle', hpassed⟩ :=
    tryLoop_total (fun x : Int => (hi - x).toNat) (skipForwardPass_spec h hhi)
      ⟨f, rfl, le_refl f, hf, fun i hi hlt => absurd hlt (by omega)⟩ (Nat.lt_succ_self _)
  unfold skipForward
  simp only [hloop, Option.bind_eq_bind, Option.bind_some]
  by_cases hend : (f' : Int) = hi
  · obtain ⟨ch, hch⟩ := exists_firstByte src f'
    rw [if_pos hend, hch]
    refine ⟨_, rfl, ?_⟩
    cases hno : src.mayStart map ch with
    | false =>
      refine .inl ⟨rfl, fun i hi hle => ?_⟩
      by_cases heq : i = f'
      · exact heq ▸ h.not_start hch hno
      · exact hpassed i hi (by omega)
    | true => exact .inr ⟨f', rfl, hle, hle', hpassed⟩
  · rw [if_neg hend]
    exact ⟨_, rfl, .inr ⟨f', rfl, hle, hle', hpassed⟩⟩

/-- Backwards from `f` no match starts behind `x`. -/
def PassedBackward (src : Source) (loc : Regcomp.Locale) (syn : RegSyntax) (c : Compiled) (f lo : Nat)
    (x : Int) : Prop :=
  (lo : Int) - 1 ≤ x ∧ x ≤ f ∧ ∀ i : Nat, x < i → i ≤ f → ¬ Start src loc syn c i

theorem skipBackwardPass_spec (h : Plausible src loc syn c (some map)) {f lo : Nat} (x : Int)
    (hx : PassedBackward src loc syn c f lo x) :
    (∃ x', skipBackwardPass src map lo x = some (.inl x') ∧ PassedBackward src loc syn c f lo x' ∧
      (x' - lo + 1).toNat < (x - lo + 1).toNat) ∨
    ∃ x', skipBackwardPass src map lo x = some (.inr x') ∧
      PassedBackward src loc syn c f lo x' := by
  obtain ⟨hle, hle', hpassed⟩ := hx
  unfold skipBackwardPass
  by_cases hend : (lo : Int) ≤ x
  · obtain ⟨f', rfl⟩ := Int.eq_ofNat_of_zero_le (by omega : 0 ≤ x)
    obtain ⟨ch, hch⟩ := exists_firstByte src f'
    rw [if_pos hend, hch]
    simp only [Option.bind_eq_bind, Option.bind_some]
    cases hno : src.mayStart map ch with
    | false =>
      refine .inl ⟨_, rfl, ⟨by omega, by omega, fun i hi hif => ?_⟩, by omega⟩
      by_cases heq : i = f'
      · exact heq ▸ h.not_start hch hno
      · exact hpassed i (by omega) hif
    | true => exact .inr ⟨_, rfl, hle, hle', hpassed⟩
  · exact .inr ⟨_, if_neg hend, hle, hle', hpassed⟩

/-- Backwards from `f` too. -/
theorem skipBackward_spec (h : Plausible src loc syn c (some map)) {f lo : Nat} (hf : lo ≤ f) :
    ∃ r, skipBackward src map lo f = some r ∧
      ((r = none ∧ ∀ i, lo ≤ i → i ≤ f → ¬ Start src loc syn c i) ∨
        ∃ f' : Nat, r = some (f' : Int) ∧ lo ≤ f' ∧ f' ≤ f ∧
          ∀ i, f' < i → i ≤ f → ¬ Start src loc syn c i) := by
  have hstart : PassedBackward src loc syn c f lo f :=
    ⟨by omega, le_refl _, fun i hi hlt => absurd hlt (by omega)⟩
  obtain ⟨x, hloop, hle, hle', hpassed⟩ :=
    tryLoop_total (fun x : Int => (x - lo + 1).toNat) (skipBackwardPass_spec h) hstart
      (by omega : ((f : Int) - lo + 1).toNat < ((f : Int) - lo).toNat + 2)
  unfold skipBackward
  simp only [hloop, Option.bind_eq_bind, Option.bind_some]
  by_cases hend : x < lo
  · rw [if_pos hend]
    exact ⟨_, rfl, .inl ⟨rfl, fun i hi hif => hpassed i (by omega) hif⟩⟩
  · rw [if_neg hend]
    obtain ⟨f', rfl⟩ := Int.eq_ofNat_of_zero_le (by omega : 0 ≤ x)
    exact ⟨_, rfl, .inr ⟨f', rfl, by omega, by omega, fun i hi hif => hpassed i (by omega) hif⟩⟩

/-! ## One pass -/

variable (src loc syn c) in
/-- The places that are passed when the search stands at `x`. -/
def Passed (forward : Bool) (lo hi : Nat) (x : Int) : Prop :=
  ∀ i : Nat, lo ≤ i → i ≤ hi → (if forward then (i : Int) < x else x < i) →
    ¬ Start src loc syn c i

/-- The next place to try, if there is one left. -/
theorem nextStart_spec {fastmap : Option (UInt8 → Bool)} (h : Plausible src loc syn c fastmap)
    {forward : Bool} {lo hi f : Nat} (hlo : lo ≤ f) (hf : f ≤ hi) (hhi : hi ≤ src.rawMbs.length)
    (hpassed : Passed src loc syn c forward lo hi f) :
    ∃ r, nextStart src fastmap forward lo hi f = some r ∧
      ((r = none ∧ ∀ i, lo ≤ i → i ≤ hi → ¬ Start src loc syn c i) ∨
        ∃ f' : Nat, r = some (f' : Int) ∧ lo ≤ f' ∧ f' ≤ hi ∧ (forward = true → f ≤ f') ∧
          (forward = false → f' ≤ f) ∧ Passed src loc syn c forward lo hi f') := by
  unfold nextStart
  cases fastmap with
  | none => exact ⟨_, rfl, .inr ⟨f, rfl, hlo, hf, fun _ => le_refl f, fun _ => le_refl f, hpassed⟩⟩
  | some map =>
    cases forward with
    | true =>
      obtain ⟨r, hrun, ⟨hr, hnone⟩ | ⟨f', hr, hle, hle', hnone⟩⟩ := skipForward_spec h hf hhi
      · refine ⟨r, hrun, .inl ⟨hr, fun i hi hi' => ?_⟩⟩
        by_cases hfi : f ≤ i
        · exact hnone i hfi hi'
        · exact hpassed i hi hi' (by simpa using hfi)
      · refine ⟨r, hrun, .inr ⟨f', hr, by omega, hle', fun _ => hle, by simp, fun i hi hi' hlt => ?_⟩⟩
        simp only [if_true, Int.ofNat_lt] at hlt
        by_cases hfi : f ≤ i
        · exact hnone i hfi hlt
        · exact hpassed i hi hi' (by simpa using hfi)
    | false =>
      obtain ⟨r, hrun, ⟨hr, hnone⟩ | ⟨f', hr, hle, hle', hnone⟩⟩ := skipBackward_spec h hlo
      · refine ⟨r, hrun, .inl ⟨hr, fun i hi hi' => ?_⟩⟩
        by_cases hfi : i ≤ f
        · exact hnone i hi hfi
        · exact hpassed i hi hi' (by simpa using hfi)
      · refine ⟨r, hrun, .inr ⟨f', hr, hle, by omega, by simp, fun _ => hle', fun i hi hi' hlt => ?_⟩⟩
        simp only [Bool.false_eq_true, if_false, Int.ofNat_lt] at hlt
        by_cases hfi : i ≤ f
        · exact hnone i hlt hfi
        · exact hpassed i hi hi' (by simpa using hfi)

variable {longest skips forward : Bool} {lo hi i : Nat} {m₀ : Machine}

/-- Where `check_matching` finds nothing, no match starts, nor at the places that it passes. -/
theorem Finds.not_start {m : Machine} {r : Matched} (h : Finds src loc syn c longest skips i m r)
    (hnone : r.matchLast = -1) {l : Nat} (hl : l ≤ r.advance) : ¬ Start src loc syn c (i + l) := by
  rintro ⟨j, hj, hmatch⟩
  have hle := h.le
  obtain ⟨-, hno⟩ | ⟨k, -, hlast, hmatch', -⟩ := h.best
  · exact hno j (by omega)
      (((h.idle l hl).matches_iff (Nat.le_add_right i l) hmatch.1).mp hmatch)
  · have := hmatch'.1
    omega

/-- The match that it finds at the first place. -/
theorem Finds.found {m : Machine} {r : Matched} (h : Finds src loc syn c true skips i m r)
    (hsome : r.matchLast ≠ -1) (hle : lo ≤ i ∧ i ≤ hi)
    (hpassed : Passed src loc syn c forward lo hi i) :
    Found src loc syn c forward lo hi ((i : Int) + r.advance) (r.matchLast + (i + r.advance)) := by
  obtain ⟨hno, -⟩ | ⟨j, hj, hlast, hmatch, hbest⟩ := h.best
  · exact absurd hno hsome
  have hlongest : ∀ j' ≤ max i src.rawStop.toNat, Matches src loc syn c i j' → j' ≤ j :=
    fun j' hj' h' => hbest j' hj' h'
  refine ⟨i, j, r.advance, rfl, by omega, ⟨hle, ⟨j, hj, hmatch⟩, fun i' hi' => ?_⟩,
    ⟨hmatch, hj, hlongest⟩, fun hk => ?_⟩
  · refine hpassed i' hi'.1 hi'.2.1 ?_
    have := hi'.2.2
    split
    · next hf =>
      rw [if_pos hf] at this
      omega
    · next hf =>
      rw [if_neg hf] at this
      omega
  · have hempty : j = i := by
      have hij := hmatch.1
      by_contra hne
      exact hk (h.advance (.inl (by omega)))
    have hstop := h.le
    refine ⟨hempty, by omega, h.loops (Nat.pos_of_ne_zero hk), fun l hl hle' => ?_⟩
    rintro ⟨j', hj', hmatch'⟩
    have hat := ((h.idle l hle').matches_iff (Nat.le_add_right i l) hmatch'.1).mp hmatch'
    have := hlongest j' (by omega) hat
    have := hmatch'.1
    omega

variable (src loc syn c) in
/-- At the head of the loop over `match_first`. -/
structure Searching (forward : Bool) (lo hi : Nat) (m₀ : Machine) (s : Search) : Prop where
  cached : Cached loc syn c s.machine
  grows : Grows m₀.dfa s.machine.dfa
  holds : ∃ i, Holds src s.input i
  forth : forward = true → (lo : Int) ≤ s.matchFirst
  back : forward = false → (lo : Int) - 1 ≤ s.matchFirst ∧ s.matchFirst ≤ hi
  passed : Passed src loc syn c forward lo hi s.matchFirst

variable (src loc syn c) in
/-- What the loop leaves. -/
structure Outcome (longest forward : Bool) (lo hi : Nat) (m₀ : Machine) (r : Searched) : Prop where
  cached : Cached loc syn c r.machine
  grows : Grows m₀.dfa r.machine.dfa
  result : (r.err = REG_NOMATCH ∧ r.found = none ∧
      ∀ i, lo ≤ i → i ≤ hi → ¬ Start src loc syn c i) ∨
    (r.err = REG_NOERROR ∧ (∃ i, lo ≤ i ∧ i ≤ hi ∧ Start src loc syn c i) ∧
      ∃ first last, r.found = some (first, last) ∧
        (longest = true → Found src loc syn c forward lo hi first (last + first)))

variable {A : Allocator DfaState} {okGroup okFollow : Nat → Bool} {preg : Preg}

/-- How far the search has to go. -/
def distance (forward : Bool) (lo hi : Nat) (s : Search) : Nat :=
  if forward then (hi + 1 - s.matchFirst).toNat else (s.matchFirst - lo + 1).toNat

/-- A pass of the loop over `match_first`. -/
theorem searchPass_spec (hw : Works loc preg.compiled A okGroup okFollow)
    (hs : Searchable src loc preg.syn preg.compiled) {fastmap : Option (UInt8 → Bool)}
    (hfast : Plausible src loc preg.syn preg.compiled fastmap)
    (hinit : Starts preg.compiled m₀.dfa preg.init) (hhi : hi ≤ src.rawMbs.length) (s : Search)
    (h : Searching src loc preg.syn preg.compiled forward lo hi m₀ s) :
    (∃ s', searchPass A loc src preg okGroup okFollow fastmap longest forward lo hi s =
        some (.inl s') ∧ Searching src loc preg.syn preg.compiled forward lo hi m₀ s' ∧
      distance forward lo hi s' < distance forward lo hi s) ∨
    ∃ r, searchPass A loc src preg okGroup okFollow fastmap longest forward lo hi s =
        some (.inr r) ∧ Outcome src loc preg.syn preg.compiled longest forward lo hi m₀ r := by
  unfold searchPass
  dsimp only
  by_cases hend : s.matchFirst < lo ∨ (hi : Int) < s.matchFirst
  · right
    refine ⟨_, if_pos hend, h.cached, h.grows, .inl ⟨rfl, rfl, fun i hi hi' => ?_⟩⟩
    refine h.passed i hi hi' ?_
    have hforth := h.forth
    have hback := h.back
    cases forward with
    | true =>
      have := hforth rfl
      simp only [if_true]
      omega
    | false =>
      have := hback rfl
      simp only [Bool.false_eq_true, if_false]
      omega
  rw [if_neg hend]
  rw [not_or, not_lt, not_lt] at hend
  obtain ⟨f, hf⟩ := Int.eq_ofNat_of_zero_le (by omega : 0 ≤ s.matchFirst)
  have hpassed := h.passed
  rw [hf] at hend hpassed
  obtain ⟨r, hnext, ⟨rfl, hnone⟩ | ⟨f', rfl, hlo, hhi', hforth, hback, hpassed'⟩⟩ :=
    nextStart_spec hfast (Int.ofNat_le.mp hend.1) (Int.ofNat_le.mp hend.2) hhi hpassed
  · right
    simp only [hf, hnext, Option.bind_eq_bind, Option.bind_some]
    exact ⟨_, rfl, h.cached, h.grows, .inl ⟨rfl, rfl, hnone⟩⟩
  obtain ⟨i, hholds⟩ := h.holds
  obtain ⟨input, hinput, hat, hcur⟩ :=
    reStringReconstruct_spec hholds hs.caseFree (hhi'.trans hhi)
  obtain ⟨r, hmatch, hfinds⟩ := checkMatching_spec hw hs h.cached (hinit.grows h.grows) hat hcur
    longest forward
  have hgrows := h.grows.trans hfinds.grows
  simp only [hf, hnext, Option.bind_eq_bind, Option.bind_some, Int.toNat_natCast, hinput, hmatch]
  by_cases hno : r.matchLast = -1
  · left
    rw [if_pos hno]
    have hnotStart : ∀ {l : Nat}, l ≤ r.advance →
        ¬ Start src loc preg.syn preg.compiled (f' + l) := fun hl => hfinds.not_start hno hl
    refine ⟨_, rfl, ⟨hfinds.cached, hgrows, ⟨f', hfinds.at'.toHolds⟩, ?_, ?_, ?_⟩, ?_⟩
    · rintro rfl
      simp only [if_true]
      omega
    · rintro rfl
      have hzero := hfinds.advance (.inr rfl)
      simp only [hzero, Bool.false_eq_true, if_false]
      omega
    · intro i hi hi' hpass
      cases forward with
      | true =>
        simp only [if_true] at hpass
        by_cases hlt : i < f'
        · exact hpassed' i hi hi' (by simpa using hlt)
        · have := hnotStart (by omega : i - f' ≤ r.advance)
          rwa [Nat.add_sub_cancel' (by omega)] at this
      | false =>
        simp only [Bool.false_eq_true, if_false] at hpass
        by_cases hlt : f' < i
        · exact hpassed' i hi hi' (by simpa using hlt)
        · have hzero := hfinds.advance (.inr rfl)
          have := hnotStart (Nat.zero_le _)
          rwa [show f' + 0 = i by omega] at this
    · cases forward with
      | true =>
        have := hforth rfl
        simp only [distance, if_true, hf]
        omega
      | false =>
        have := hback rfl
        have hzero := hfinds.advance (.inr rfl)
        simp only [distance, Bool.false_eq_true, if_false, hf, hzero]
        omega
  · right
    obtain ⟨habs, -⟩ | ⟨j, hj, hlast, hm, -⟩ := hfinds.best
    · exact absurd habs hno
    have hij := hm.1
    rw [if_neg hno, if_neg (by omega)]
    refine ⟨_, rfl, hfinds.cached, hgrows,
      .inr ⟨rfl, ⟨f', hlo, hhi', j, hj, hm⟩, _, _, rfl, ?_⟩⟩
    rintro rfl
    exact hfinds.found hno ⟨hlo, hhi'⟩ hpassed'

/-! ## Anchored patterns -/

/-- Behind the first character the context is that of a character. -/
theorem before_cases_of_pos (src : Source) {i : Nat} (hi : 0 < i) : src.before i = 0 ∨
    src.before i = CONTEXT_WORD ∨
      src.before i = CONTEXT_NEWLINE ∧ src.newlineAnchor = true := by
  obtain ⟨i, rfl⟩ := Nat.exists_eq_succ_of_ne_zero hi.ne'
  rw [Source.before]
  cases src.text[i]? with
  | none => exact .inl rfl
  | some ch => exact charContext_cases src ch

theorem isEmptyState_spec {m : Machine} (hm : Cached loc syn c m) {p context : Nat}
    (hmade : Made m.dfa p (initSet c) context) :
    ∃ b, isEmptyState m.dfa.mem.heap p = some b ∧
      (b = true → allowed c context (initSet c) = ∅) := by
  obtain ⟨st, hst, -⟩ := id hmade
  refine ⟨decide (st.nodes = []), by rw [isEmptyState, hst.live]; rfl, fun hempty => ?_⟩
  ext q
  rw [← hmade.mem_nodes hm.nodes hm.sound hst, of_decide_eq_true hempty]
  simp

/-- If the pattern is anchored, a match starts at the front only. -/
theorem isAnchored_spec (hsrc : src.newlineAnchor = preg.newlineAnchor) {m : Machine}
    (hm : Cached loc preg.syn preg.compiled m) (hinit : Starts preg.compiled m.dfa preg.init) :
    ∃ b, isAnchored preg m.dfa.mem.heap = some b ∧
      (b = true → ∀ i, 0 < i → ¬ Start src loc preg.syn preg.compiled i) := by
  have hplain : Made m.dfa preg.init.plain (initSet preg.compiled) 0 := by
    obtain ⟨st, hst, hent, hctx⟩ := hinit.plain
    exact ⟨st, hst, fun p => by rw [hent]; exact Iff.rfl, fun _ => hctx⟩
  obtain ⟨b₁, h₁, hempty₁⟩ := isEmptyState_spec hm hplain
  obtain ⟨b₂, h₂, hempty₂⟩ := isEmptyState_spec hm hinit.word
  obtain ⟨b₃, h₃, hempty₃⟩ := isEmptyState_spec hm hinit.nl
  refine ⟨b₁ && b₂ && (b₃ || !preg.newlineAnchor), ?_, fun hb i hi => ?_⟩
  · unfold isAnchored
    rw [h₁, h₂, h₃]
    cases b₁ <;> cases b₂ <;> cases b₃ <;> rfl
  · simp only [Bool.and_eq_true, Bool.or_eq_true, Bool.not_eq_true'] at hb
    obtain ⟨⟨hb₁, hb₂⟩, hb₃⟩ := hb
    have hnone : allowed preg.compiled (src.before i) (initSet preg.compiled) = ∅ := by
      obtain hctx | hctx | ⟨hctx, hanchor⟩ := before_cases_of_pos src hi
      · rw [hctx]
        exact hempty₁ hb₁
      · rw [hctx]
        exact hempty₂ hb₂
      · rw [hctx]
        exact hempty₃ (hb₃.resolve_right (by rw [← hsrc, hanchor]; exact Bool.true_eq_false_eq_False))
    rintro ⟨j, -, hmatch⟩
    refine not_matches_of_empty ?_ (le_refl i) hmatch.1 hmatch
    rw [reach_self]
    exact hnone

/-! ## re_search_internal -/

variable (loc preg) in
/-- What a compiled pattern keeps while it is used. -/
structure Prepared (m : Machine) : Prop where
  cached : Cached loc preg.syn preg.compiled m
  starts : Starts preg.compiled m.dfa preg.init

variable (src loc preg) in
/-- What a search from `start` to `lastStart` reports. -/
def Reports (start lastStart nmatch : Nat) (err : RegErrcode) (pmatch : List (Int × Int)) : Prop :=
  (err = REG_NOMATCH ∧ pmatch = [] ∧ ∀ i, min start lastStart ≤ i → i ≤ max start lastStart →
      ¬ Start src loc preg.syn preg.compiled i) ∨
    (err = REG_NOERROR ∧ (∃ i, min start lastStart ≤ i ∧ i ≤ max start lastStart ∧
        Start src loc preg.syn preg.compiled i) ∧
      (nmatch ≠ 0 → ∃ so eo rest, pmatch = (so, eo) :: rest ∧
        Found src loc preg.syn preg.compiled (decide (start ≤ lastStart)) (min start lastStart)
          (max start lastStart) so eo))

variable {m : Machine}

theorem Prepared.ne_null (h : Prepared loc preg m) :
    ¬ (preg.init.plain = 0 ∨ preg.init.word = 0 ∨ preg.init.nl = 0 ∨ preg.init.begbuf = 0) := by
  have hmade : ∀ {p context : Nat}, Made m.dfa p (initSet preg.compiled) context → p ≠ 0 := by
    rintro p context ⟨st, hst, -⟩
    exact h.cached.sound.ne_null hst
  obtain ⟨st, hst, -⟩ := h.starts.plain
  simp [h.cached.sound.ne_null hst, hmade h.starts.word, hmade h.starts.nl, hmade h.starts.begbuf]

/-- The loop, from its start. -/
theorem searchLoop_spec (hw : Works loc preg.compiled A okGroup okFollow)
    (hs : Searchable src loc preg.syn preg.compiled) {fastmap : Option (UInt8 → Bool)}
    (hfast : Plausible src loc preg.syn preg.compiled fastmap) (hm : Prepared loc preg m)
    {start lastStart : Nat} (hstart : start ≤ src.rawMbs.length)
    (hlast : lastStart ≤ src.rawMbs.length) {input : ReString} (hinput : Holds src input 0)
    (longest : Bool) :
    ∃ r, tryLoop (searchPass A loc src preg okGroup okFollow fastmap longest
        (start ≤ lastStart) (min start lastStart : Nat) (max start lastStart : Nat))
        (((max start lastStart : Nat) - (min start lastStart : Nat) : Int).toNat + 2)
        ⟨m, input, start⟩ = some r ∧
      Outcome src loc preg.syn preg.compiled longest (start ≤ lastStart) (min start lastStart)
        (max start lastStart) m r := by
  refine tryLoop_total (distance (start ≤ lastStart) (min start lastStart)
    (max start lastStart)) (searchPass_spec hw hs hfast hm.starts (max_le hstart hlast))
    ⟨hm.cached, Grows.refl _, ⟨0, hinput⟩, fun _ => ?_, fun hback => ?_, fun i hi hi' hpass => ?_⟩ ?_
  · dsimp only
    omega
  · dsimp only
    omega
  · dsimp only at hpass
    split at hpass
    · next hf =>
      have := of_decide_eq_true hf
      omega
    · next hf =>
      rw [decide_eq_true_iff] at hf
      omega
  · unfold distance
    dsimp only
    split
    · omega
    · omega

/-- The elements of `pmatch` that are no subexpressions. -/
def extraNmatch (preg : Preg) (nmatch : Nat) : Nat :=
  if nmatch > preg.compiled.nfa.reNsub then nmatch - (preg.compiled.nfa.reNsub + 1) else 0

theorem sub_extraNmatch (preg : Preg) (nmatch : Nat) :
    nmatch - extraNmatch preg nmatch ≠ 0 ↔ nmatch ≠ 0 := by
  unfold extraNmatch
  split
  · omega
  · omega

/-- What the loop leaves is what is reported. -/
theorem searchFrom_spec (hw : Works loc preg.compiled A okGroup okFollow)
    (hs : Searchable src loc preg.syn preg.compiled) {fastmap : Option (UInt8 → Bool)}
    (hfast : Plausible src loc preg.syn preg.compiled fastmap) (hm : Prepared loc preg m)
    {start lastStart : Nat} (hstart : start ≤ src.rawMbs.length)
    (hlast : lastStart ≤ src.rawMbs.length) (nmatch : Nat) :
    ∃ m' err pmatch, searchFrom A loc src preg okGroup okFollow fastmap m start lastStart
        (nmatch - extraNmatch preg nmatch) (extraNmatch preg nmatch) = some (m', err, pmatch) ∧
      Prepared loc preg m' ∧ Reports src loc preg start lastStart nmatch err pmatch := by
  obtain ⟨hbuf, hinput⟩ := reStringAllocate_spec hs.buf preg.compiled.nfa.graph.nodes.length
  obtain ⟨r, hloop, hr⟩ := searchLoop_spec hw hs hfast hm hstart hlast hinput
    (nmatch - extraNmatch preg nmatch ≠ 0)
  refine ⟨r.machine, r.err, pmatchOf r.found (nmatch - extraNmatch preg nmatch)
    (extraNmatch preg nmatch), ?_, ⟨hr.cached, hm.starts.grows hr.grows⟩, ?_⟩
  · rw [Nat.cast_min, Nat.cast_max] at hloop
    unfold searchFrom
    simp only [hbuf, ne_eq, not_true_eq_false, if_false, Int.ofNat_le]
    rw [hloop]
    rfl
  · obtain ⟨herr, hnone, hno⟩ | ⟨herr, hsome, first, last, hfound, hlongest⟩ := hr.result
    · exact .inl ⟨herr, by rw [hnone]; rfl, hno⟩
    · refine .inr ⟨herr, hsome, fun hn => ?_⟩
      have hn' := (sub_extraNmatch preg nmatch).mpr hn
      rw [hfound]
      exact ⟨_, _, _, if_neg hn', hlongest (decide_eq_true hn')⟩

/-- The same for an anchored pattern, which is searched at the front only. -/
theorem Reports.anchored {start lastStart nmatch : Nat} {err : RegErrcode}
    {pmatch : List (Int × Int)} (h : Reports src loc preg 0 0 nmatch err pmatch)
    (hno : ∀ i, 0 < i → ¬ Start src loc preg.syn preg.compiled i)
    (hzero : min start lastStart = 0) : Reports src loc preg start lastStart nmatch err pmatch := by
  obtain ⟨herr, hnil, hnone⟩ | ⟨herr, ⟨i, -, hi, hsome⟩, hfound⟩ := h
  · refine .inl ⟨herr, hnil, fun i _ _ => ?_⟩
    obtain rfl | hpos := Nat.eq_zero_or_pos i
    · exact hnone 0 (Nat.le_refl _) (Nat.le_refl _)
    · exact hno i hpos
  · obtain rfl : i = 0 := Nat.le_zero.mp hi
    refine .inr ⟨herr, ⟨0, by omega, Nat.zero_le _, hsome⟩, fun hn => ?_⟩
    obtain ⟨so, eo, rest, hpmatch, i, j, k, hso, heo, hfirst, hlongest, hk⟩ := hfound hn
    obtain rfl : i = 0 := Nat.le_zero.mp hfirst.le.2
    refine ⟨so, eo, rest, hpmatch, 0, j, k, hso, heo, ⟨⟨by omega, Nat.zero_le _⟩, hfirst.start, ?_⟩,
      hlongest, hk⟩
    intro i' hi'
    refine hno i' (Nat.pos_of_ne_zero ?_)
    rintro rfl
    have := hi'.2.2
    split at this
    · omega
    · omega

/-- The search reports the first match. -/
theorem reSearchInternal_reports (hw : Works loc preg.compiled A okGroup okFollow)
    (hs : Searchable src loc preg.syn preg.compiled)
    (hanchor : src.newlineAnchor = preg.newlineAnchor)
    (hfast : preg.fastmapAccurate = true → preg.canBeNull = false →
      Plausible src loc preg.syn preg.compiled preg.fastmap)
    (hm : Prepared loc preg m) {start lastStart : Nat} (hstart : start ≤ src.rawMbs.length)
    (hlast : lastStart ≤ src.rawMbs.length) {nmatch : Nat}
    (hlog : logsStates preg (nmatch - extraNmatch preg nmatch) = false) :
    ∃ m' err pmatch, reSearchInternal A loc src preg okGroup okFollow m start lastStart nmatch =
        some (m', err, pmatch) ∧ Prepared loc preg m' ∧
      Reports src loc preg start lastStart nmatch err pmatch := by
  obtain ⟨b, hisAnchored, hb⟩ := isAnchored_spec hanchor hm.cached hm.starts
  have hplausible : Plausible src loc preg.syn preg.compiled
      (if preg.fastmapAccurate ∧ (start : Int) ≠ lastStart ∧ !preg.canBeNull then preg.fastmap
        else none) := by
    split
    · next h => exact hfast h.1 (by simpa using h.2.2)
    · exact fun map hmap => by cases hmap
  have hlog' : ¬ logsStates preg (nmatch - if nmatch > preg.compiled.nfa.reNsub then
      nmatch - (preg.compiled.nfa.reNsub + 1) else 0) = true := by
    change ¬ logsStates preg (nmatch - extraNmatch preg nmatch) = true
    simp [hlog]
  unfold reSearchInternal
  simp only [if_neg hlog', if_neg hm.ne_null, hisAnchored, Option.bind_eq_bind, Option.bind_some]
  cases b with
  | false => exact searchFrom_spec hw hs hplausible hm hstart hlast nmatch
  | true =>
    by_cases hfront : (start : Int) ≠ 0 ∧ (lastStart : Int) ≠ 0
    · refine ⟨m, REG_NOMATCH, [], if_pos hfront, hm, .inl ⟨rfl, rfl, fun i hi _ => ?_⟩⟩
      exact hb rfl i (by omega)
    · obtain ⟨m', err, pmatch, hrun, hm', hreports⟩ := searchFrom_spec hw hs hplausible hm
        (Nat.zero_le src.rawMbs.length) (Nat.zero_le src.rawMbs.length) nmatch
      exact ⟨m', err, pmatch, by rw [if_neg hfront]; exact hrun, hm',
        hreports.anchored (hb rfl) (by omega)⟩

end Librecompat.Regexec
