/-
  Facts about what an option takes.

  `Advances` says that an option passes over elements that are there, and that it stays in its
  element only to go on with a shorter text. `takeOption_local` and `takeShort_local` say that an
  option that has its argument depends on nothing but the elements that it passes over: not on
  what follows, on memory or on messages. `takeOption_ret` excludes the return value -1.
-/
import Librecompat.Getopt.Options

namespace Librecompat.Getopt

/-! ## How far an option goes -/

/-- `t` handles the text `text` in an element before the elements `next`. -/
structure Advances (text : Str) (next : List CString) (t : Taken) : Prop where
  le : t.taken ≤ next.length + 1
  inside : t.taken = 0 → ∃ c, text = c :: t.nextchar.getD [] ∧ t.nextchar.getD [] ≠ []
  boundary : 0 < t.taken → t.nextchar.getD [] = []

variable {a : Args} {mallocOk printErrors : Bool} {optstring : Str} {text t temp : Str}
  {longOnly : Bool} {pfx : Str} {longopts : List LongOption} {e : CString} {next : List CString}
  {c : UInt8}

theorem takeValue_taken (p : LongOption) (index : Nat) (optarg : Option Str) (taken : Nat) :
    (takeValue p index optarg taken).taken = taken ∧
      (takeValue p index optarg taken).nextchar = none ∧
      (takeValue p index optarg taken).diag = none := by
  unfold takeValue
  split <;> exact ⟨rfl, rfl, rfl⟩

/-- A long option goes to the end of its element, and maybe over one more. -/
structure Passes (next : List CString) (t : Taken) : Prop where
  pos : 0 < t.taken
  le : t.taken ≤ next.length + 1
  nextchar : t.nextchar.getD [] = []

theorem Passes.advances {t : Taken} (h : Passes next t) : Advances text next t :=
  ⟨h.le, fun h0 => absurd h0 (Nat.pos_iff_ne_zero.mp h.pos), fun _ => h.nextchar⟩

theorem takeFound_passes (p : LongOption) (index : Nat) (nameend : Str) :
    Passes next (takeFound optstring pfx p index nameend next) := by
  have hvalue : ∀ optarg taken, 0 < taken → taken ≤ next.length + 1 →
      Passes next (takeValue p index optarg taken) := by
    intro optarg taken hpos hle
    obtain ⟨htaken, hnext, -⟩ := takeValue_taken p index optarg taken
    exact ⟨by omega, by omega, by rw [hnext]; rfl⟩
  unfold takeFound
  split
  · split
    · exact hvalue _ _ Nat.one_pos (Nat.le_add_left _ _)
    · exact ⟨Nat.one_pos, Nat.le_add_left _ _, rfl⟩
  · split
    · split
      · refine hvalue _ _ Nat.two_pos ?_
        rw [List.length_cons]
        omega
      · exact ⟨Nat.one_pos, Nat.le_add_left _ _, rfl⟩
    · exact hvalue _ _ Nat.one_pos (Nat.le_add_left _ _)

theorem takeLong_passes {t : Taken}
    (ht : takeLong mallocOk optstring printErrors longOnly pfx longopts text e next = some t) :
    Passes next t := by
  unfold takeLong at ht
  split at ht
  · obtain rfl := Option.some.inj ht
    exact ⟨Nat.one_pos, Nat.le_add_left _ _, rfl⟩
  · split at ht
    · cases ht
    · obtain rfl := Option.some.inj ht
      exact ⟨Nat.one_pos, Nat.le_add_left _ _, rfl⟩
  · obtain rfl := Option.some.inj ht
    exact takeFound_passes _ _ _

theorem takeAfterW_passes {t' : Taken}
    (ht : takeAfterW mallocOk optstring printErrors c t longopts e next = some t') :
    Passes next t' := by
  unfold takeAfterW at ht
  split at ht
  · exact takeLong_passes ht
  · split at ht
    · obtain ⟨t'', ht'', rfl⟩ := Option.map_eq_some_iff.mp ht
      have h := takeLong_passes ht''
      exact ⟨Nat.succ_pos _, by simpa using h.le, h.nextchar⟩
    · obtain rfl := Option.some.inj ht
      exact ⟨Nat.one_pos, Nat.le_add_left _ _, rfl⟩

/-- The character `c` is passed over, and the element with it when nothing follows in it. -/
theorem advances_char (ret : Int) (optopt : Option Int) (diag : Option Diagnosis) :
    Advances (c :: t) next { ret := ret, nextchar := some t, optopt := optopt, diag := diag,
                             taken := if t = [] then 1 else 0 } := by
  by_cases ht : t = []
  · rw [if_pos ht]
    exact ⟨Nat.le_add_left _ _, nofun, fun _ => ht⟩
  · rw [if_neg ht]
    exact ⟨Nat.zero_le _, fun _ => ⟨c, rfl, ht⟩, nofun⟩

theorem takeOrdinary_advances : Advances (c :: t) next (takeOrdinary optstring c t temp next) := by
  have hone : ∀ (ret : Int) optarg optopt diag, Advances (c :: t) next
      { ret := ret, optarg := optarg, optopt := optopt, diag := diag, taken := 1 } :=
    fun _ _ _ _ => ⟨Nat.le_add_left _ _, nofun, fun _ => rfl⟩
  unfold takeOrdinary
  split
  · split
    · exact hone _ _ _ none
    · split
      · exact hone _ _ _ none
      · split
        · exact ⟨by simp, nofun, fun _ => rfl⟩
        · exact hone _ none _ _
  · exact advances_char _ _ _

theorem takeShort_advances {t : Taken}
    (ht : takeShort a mallocOk optstring printErrors text e next = some t) :
    Advances text next t := by
  unfold takeShort at ht
  cases text with
  | nil => cases ht
  | cons c text =>
    dsimp only at ht
    split at ht
    · obtain rfl := Option.some.inj ht
      exact advances_char _ _ _
    · split at ht
      · obtain rfl := Option.some.inj ht
        exact advances_char _ _ _
      · split at ht
        · split at ht
          · exact (takeAfterW_passes ht).advances
          · obtain rfl := Option.some.inj ht
            exact takeOrdinary_advances
        · obtain rfl := Option.some.inj ht
          exact takeOrdinary_advances

theorem takeOption_advances {t : Taken}
    (ht : takeOption a mallocOk optstring printErrors e next = some t) :
    Advances e.1.tail next t := by
  unfold takeOption at ht
  dsimp only at ht
  split at ht
  · exact takeShort_advances ht
  · split at ht
    · exact (takeLong_passes ht).advances
    · split at ht
      · split at ht
        · next hlong =>
          obtain rfl := Option.some.inj ht
          exact (takeLong_passes hlong).advances
        · exact takeShort_advances ht
      · exact takeShort_advances ht

/-! ## What an option depends on -/

def Diagnosis.missing : Diagnosis → Bool
  | .requires _ _ => true
  | .requiresShort _ => true
  | _ => false

/-- The option has not found the argument that it requires. -/
def Taken.missing (t : Taken) : Bool := t.diag.any Diagnosis.missing

/-- The two are the same for the caller and for the scan. -/
structure Taken.Same (t t' : Taken) : Prop where
  ret : t'.ret = t.ret
  optarg : t'.optarg = t.optarg
  nextchar : t'.nextchar = t.nextchar
  taken : t'.taken = t.taken

theorem Taken.Same.refl (t : Taken) : t.Same t := ⟨rfl, rfl, rfl, rfl⟩

variable {used : List CString} {mallocOk' printErrors' : Bool}

theorem takeFound_local {p : LongOption} {index : Nat} {nameend : Str} (r r' : List CString)
    (hle : (takeFound optstring pfx p index nameend (used ++ r)).taken ≤ used.length + 1)
    (hm : (takeFound optstring pfx p index nameend (used ++ r)).missing = false) :
    takeFound optstring pfx p index nameend (used ++ r') =
      takeFound optstring pfx p index nameend (used ++ r) := by
  unfold takeFound at hle hm ⊢
  split
  · rfl
  · next hend =>
    split
    · next harg =>
      rw [if_neg hend, if_pos harg] at hle hm
      cases used with
      | cons arg used => rfl
      | nil =>
        cases r with
        | nil => exact Bool.noConfusion (show true = false from hm)
        | cons arg r =>
          exact absurd hle (by simp [(takeValue_taken p index (some arg.1) 2).1])
    · rfl

theorem takeLong_local {t : Taken} {r : List CString} (r' : List CString)
    (ht : takeLong mallocOk optstring printErrors longOnly pfx longopts text e (used ++ r) = some t)
    (hle : t.taken ≤ used.length + 1) (hm : t.missing = false) :
    ∃ t', takeLong mallocOk' optstring printErrors' longOnly pfx longopts text e (used ++ r') =
      some t' ∧ t.Same t' := by
  unfold takeLong at ht ⊢
  have hsame := @matchLong_same longOnly printErrors mallocOk (text.takeWhile (· ≠ 61)) longopts
    printErrors' mallocOk'
  generalize matchLong longopts longOnly printErrors mallocOk _ = found at ht hsame
  generalize matchLong longopts longOnly printErrors' mallocOk' _ = found' at hsame ⊢
  cases hsame with
  | ambiguous names names' =>
    obtain rfl := Option.some.inj ht
    exact ⟨_, rfl, rfl, rfl, rfl, rfl⟩
  | found p index =>
    obtain rfl := Option.some.inj ht
    exact ⟨_, rfl, by rw [takeFound_local r r' hle hm]; exact .refl _⟩
  | unknown => exact ⟨t, ht, .refl t⟩

theorem takeLong_none {next' : List CString}
    (ht : takeLong mallocOk optstring printErrors longOnly pfx longopts text e next = none) :
    takeLong mallocOk' optstring printErrors' longOnly pfx longopts text e next' = none := by
  unfold takeLong at ht ⊢
  have hsame := @matchLong_same longOnly printErrors mallocOk (text.takeWhile (· ≠ 61)) longopts
    printErrors' mallocOk'
  generalize matchLong longopts longOnly printErrors mallocOk _ = found at ht hsame
  generalize matchLong longopts longOnly printErrors' mallocOk' _ = found' at hsame ⊢
  cases hsame with
  | ambiguous names names' => cases ht
  | found p index => cases ht
  | unknown =>
    by_cases h : longOnly = true ∧ ¬ (e.1[1]? = some 45 ∨ strchr optstring (text.headD 0) = none)
    · exact if_pos h
    · exact absurd ((if_neg h).symm.trans ht) (Option.some_ne_none _)

theorem takeAfterW_local {t' : Taken} {r : List CString} (r' : List CString)
    (ht : takeAfterW mallocOk optstring printErrors c t longopts e (used ++ r) = some t')
    (hle : t'.taken ≤ used.length + 1) (hm : t'.missing = false) :
    ∃ t'', takeAfterW mallocOk' optstring printErrors' c t longopts e (used ++ r') = some t'' ∧
      t'.Same t'' := by
  unfold takeAfterW at ht ⊢
  split
  · next h0 =>
    rw [if_pos h0] at ht
    exact takeLong_local r' ht hle hm
  · next h0 =>
    rw [if_neg h0] at ht
    cases used with
    | nil =>
      cases r with
      | nil =>
        obtain rfl := Option.some.inj ht
        exact Bool.noConfusion (show true = false from hm)
      | cons arg r =>
        obtain ⟨t₁, ht₁, rfl⟩ := Option.map_eq_some_iff.mp ht
        have hpos := (takeLong_passes ht₁).pos
        simp only [List.length_nil] at hle
        omega
    | cons arg used =>
      obtain ⟨t₁, ht₁, rfl⟩ := Option.map_eq_some_iff.mp ht
      have hlocal : ∃ t₂, takeLong mallocOk' optstring printErrors' false (chars "-W ") longopts
          arg.1 arg (used ++ r') = some t₂ ∧ t₁.Same t₂ :=
        takeLong_local r' ht₁ (Nat.le_of_succ_le_succ hle) hm
      obtain ⟨t₂, ht₂, hsame⟩ := hlocal
      exact ⟨_, Option.map_eq_some_iff.mpr ⟨t₂, ht₂, rfl⟩, hsame.ret, hsame.optarg,
        hsame.nextchar, congrArg (· + 1) hsame.taken⟩

theorem takeOrdinary_local (r r' : List CString)
    (hle : (takeOrdinary optstring c t temp (used ++ r)).taken ≤ used.length + 1)
    (hm : (takeOrdinary optstring c t temp (used ++ r)).missing = false) :
    takeOrdinary optstring c t temp (used ++ r') = takeOrdinary optstring c t temp (used ++ r) := by
  unfold takeOrdinary at hle hm ⊢
  split
  · next h1 =>
    split
    · rfl
    · next h2 =>
      split
      · rfl
      · next h3 =>
        rw [if_pos h1, if_neg h2, if_neg h3] at hle hm
        cases used with
        | cons arg used => rfl
        | nil =>
          cases r with
          | nil => exact Bool.noConfusion (show true = false from hm)
          | cons arg r => exact absurd hle (by simp)
  · rfl

theorem takeShort_local {t : Taken} {r : List CString} (r' : List CString)
    (ht : takeShort a mallocOk optstring printErrors text e (used ++ r) = some t)
    (hle : t.taken ≤ used.length + 1) (hm : t.missing = false) :
    ∃ t', takeShort a mallocOk' optstring printErrors' text e (used ++ r') = some t' ∧
      t.Same t' := by
  unfold takeShort at ht ⊢
  cases text with
  | nil => cases ht
  | cons c text =>
    dsimp only at ht ⊢
    cases hs : strchr optstring c with
    | none =>
      rw [hs] at ht
      exact ⟨t, ht, .refl t⟩
    | some temp =>
      rw [hs] at ht
      dsimp only at ht ⊢
      split
      · next hc =>
        rw [if_pos hc] at ht
        exact ⟨t, ht, .refl t⟩
      · next hc =>
        rw [if_neg hc] at ht
        have hordinary : some (takeOrdinary optstring c text temp (used ++ r)) = some t →
            ∃ t', some (takeOrdinary optstring c text temp (used ++ r')) = some t' ∧ t.Same t' := by
          intro h
          obtain rfl := Option.some.inj h
          exact ⟨_, rfl, by rw [takeOrdinary_local r r' hle hm]; exact .refl _⟩
        cases hl : a.longopts with
        | none =>
          rw [hl] at ht
          exact hordinary ht
        | some longopts =>
          rw [hl] at ht
          dsimp only at ht ⊢
          split
          · next hw =>
            rw [if_pos hw] at ht
            exact takeAfterW_local r' ht hle hm
          · next hw =>
            rw [if_neg hw] at ht
            exact hordinary ht

theorem takeOption_local {t : Taken} {r : List CString} (r' : List CString)
    (ht : takeOption a mallocOk optstring printErrors e (used ++ r) = some t)
    (hle : t.taken ≤ used.length + 1) (hm : t.missing = false) :
    ∃ t', takeOption a mallocOk' optstring printErrors' e (used ++ r') = some t' ∧ t.Same t' := by
  unfold takeOption at ht ⊢
  dsimp only at ht ⊢
  cases hl : a.longopts with
  | none =>
    rw [hl] at ht
    exact takeShort_local r' ht hle hm
  | some longopts =>
    rw [hl] at ht
    dsimp only at ht ⊢
    split
    · next hd =>
      rw [if_pos hd] at ht
      exact takeLong_local r' ht hle hm
    · next hd =>
      rw [if_neg hd] at ht
      split
      · next hlook =>
        rw [if_pos hlook] at ht
        cases hlong : takeLong mallocOk optstring printErrors a.longOnly (chars "-") longopts
            (e.1.drop 1) e (used ++ r) with
        | none =>
          rw [hlong] at ht
          rw [takeLong_none hlong]
          exact takeShort_local r' ht hle hm
        | some t₁ =>
          rw [hlong] at ht
          obtain rfl := Option.some.inj ht
          have hlocal : ∃ t₂, takeLong mallocOk' optstring printErrors' a.longOnly (chars "-")
              longopts (e.1.drop 1) e (used ++ r') = some t₂ ∧ t₁.Same t₂ :=
            takeLong_local r' hlong hle hm
          obtain ⟨t₂, ht₂, hsame⟩ := hlocal
          rw [ht₂]
          exact ⟨t₂, rfl, hsame⟩
      · next hlook =>
        rw [if_neg hlook] at ht
        exact takeShort_local r' ht hle hm

/-! ## The return value -/

/-- No option has the value -1: neither a long option without `flag`, nor a character of the option
    string, of which 0xFF has the value -1. -/
structure NoMinusOne (a : Args) : Prop where
  long : ∀ longopts, a.longopts = some longopts → ∀ p ∈ longopts, p.flag = none → p.val ≠ -1
  short : 255 ∉ a.optstring.1

theorem mem_of_strchr {s temp : Str} (h : strchr s c = some temp) (h0 : c ≠ 0) : c ∈ s := by
  by_contra hc
  rw [strchr_eq_none_iff.mpr ⟨h0, hc⟩] at h
  cases h

theorem shortopts_subset (a : Args) : a.shortopts ⊆ a.optstring.1 := by
  unfold Args.shortopts
  split
  · exact fun x hx => List.mem_of_mem_tail hx
  · exact List.Subset.refl _

theorem NoMinusOne.charVal_ne (h : NoMinusOne a) (hc : strchr a.shortopts c = some temp) :
    charVal c ≠ -1 := by
  intro hval
  obtain rfl : c = 255 := charVal_inj hval
  exact h.short (shortopts_subset a (mem_of_strchr hc (by decide)))

theorem NoMinusOne.takeLong_ret (h : NoMinusOne a) (hl : a.longopts = some longopts) {t : Taken}
    (ht : takeLong mallocOk optstring printErrors longOnly pfx longopts text e next = some t) :
    t.ret ≠ -1 := by
  intro hret
  obtain ⟨p, index, hfound, hflag, hval, -⟩ := takeLong_minusOne ht hret
  exact h.long longopts hl p (mem_of_found hfound) hflag hval

theorem NoMinusOne.not_minusOne (h : NoMinusOne a) :
    ¬ MinusOne a optstring e next := by
  rintro ⟨longopts, p, index, hl, -, -, hfound, hflag, hval, -⟩
  exact h.long longopts hl p (mem_of_found hfound) hflag hval

theorem NoMinusOne.takeShort_ret (h : NoMinusOne a) {t : Taken}
    (ht : takeShort a mallocOk a.shortopts printErrors text e next = some t) : t.ret ≠ -1 := by
  have hquestion : question ≠ -1 := by decide
  unfold takeShort at ht
  cases text with
  | nil => cases ht
  | cons c text =>
    dsimp only at ht
    cases hs : strchr a.shortopts c with
    | none =>
      rw [hs] at ht
      obtain rfl := Option.some.inj ht
      exact hquestion
    | some temp =>
      rw [hs] at ht
      dsimp only at ht
      have hordinary : some (takeOrdinary a.shortopts c text temp next) = some t → t.ret ≠ -1 := by
        intro heq
        obtain rfl := Option.some.inj heq
        unfold takeOrdinary
        split
        · split
          · exact h.charVal_ne hs
          · split
            · exact h.charVal_ne hs
            · split
              · exact h.charVal_ne hs
              · exact missingCode_ne _
        · exact h.charVal_ne hs
      split at ht
      · obtain rfl := Option.some.inj ht
        exact hquestion
      · split at ht
        · next longopts hl =>
          split at ht
          · unfold takeAfterW at ht
            split at ht
            · exact h.takeLong_ret hl ht
            · split at ht
              · obtain ⟨t₁, ht₁, rfl⟩ := Option.map_eq_some_iff.mp ht
                have hret : t₁.ret ≠ -1 := h.takeLong_ret hl ht₁
                exact hret
              · obtain rfl := Option.some.inj ht
                exact missingCode_ne _
          · exact hordinary ht
        · exact hordinary ht

theorem NoMinusOne.takeOption_ret (h : NoMinusOne a) {t : Taken}
    (ht : takeOption a mallocOk a.shortopts printErrors e next = some t) : t.ret ≠ -1 := by
  unfold takeOption at ht
  dsimp only at ht
  split at ht
  · exact h.takeShort_ret ht
  · next longopts hl =>
    split at ht
    · exact h.takeLong_ret hl ht
    · split at ht
      · split at ht
        · next hlong =>
          obtain rfl := Option.some.inj ht
          exact h.takeLong_ret hl hlong
        · exact h.takeShort_ret ht
      · exact h.takeShort_ret ht

end Librecompat.Getopt
