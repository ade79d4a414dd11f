/-
  The outcome of the search for a long option does not depend on whether messages are printed or
  on the memory for the set of candidates.

  `ambig_set` and `ambig_fallback` together say one thing, that two different candidates have been
  met (`Abbrev.marked`). `scanAbbrev` is the search without them; `matchLong_eq` reads its outcome
  off it.
-/
import Librecompat.Getopt.Model

namespace Librecompat.Getopt

/-- The first candidate, and whether a candidate that conflicts with it has been met. -/
def scanAbbrev (longOnly : Bool) (name : Str) (s : Option (LongOption × Nat) × Bool)
    (o : LongOption × Nat) : Option (LongOption × Nat) × Bool :=
  if name.isPrefixOf o.1.name.1 then
    match s.1 with
    | none => (some o, s.2)
    | some found => (some found, s.2 || conflicts longOnly found.1 o.1)
  else s

/-- Two different candidates have been met. -/
def Abbrev.marked (s : Abbrev) : Bool := s.ambigSet.isSome || s.ambigFallback

variable {longOnly printErrors mallocOk : Bool} {nOptions : Nat} {name : Str}

theorem record_eq (s : Abbrev) (indfound optionIndex : Nat) :
    (s.record printErrors mallocOk nOptions indfound optionIndex).pfound = s.pfound ∧
      (s.record printErrors mallocOk nOptions indfound optionIndex).marked = true := by
  obtain ⟨pfound, ambigSet, ambigFallback⟩ := s
  unfold Abbrev.record Abbrev.marked
  cases ambigFallback <;> cases printErrors <;> cases ambigSet <;> cases mallocOk <;> simp

theorem abbrevStep_eq (s : Abbrev) (o : LongOption × Nat) :
    ((abbrevStep longOnly printErrors mallocOk nOptions name s o).pfound,
      (abbrevStep longOnly printErrors mallocOk nOptions name s o).marked) =
      scanAbbrev longOnly name (s.pfound, s.marked) o := by
  unfold abbrevStep scanAbbrev
  split
  · cases hp : s.pfound with
    | none => rfl
    | some found =>
      dsimp only
      by_cases hc : conflicts longOnly found.1 o.1
      · obtain ⟨hpfound, hmarked⟩ := @record_eq printErrors mallocOk nOptions s found.2 o.2
        rw [if_pos hc, hpfound, hmarked, hp, decide_eq_true hc, Bool.or_true]
      · rw [if_neg hc, hp, decide_eq_false hc, Bool.or_false]
  · rfl

theorem foldl_abbrevStep (l : List (LongOption × Nat)) (s : Abbrev) :
    ((l.foldl (abbrevStep longOnly printErrors mallocOk nOptions name) s).pfound,
      (l.foldl (abbrevStep longOnly printErrors mallocOk nOptions name) s).marked) =
      l.foldl (scanAbbrev longOnly name) (s.pfound, s.marked) := by
  induction l generalizing s with
  | nil => rfl
  | cons o l ih => rw [List.foldl_cons, List.foldl_cons, ih, abbrevStep_eq]

/-- The outcome of both searches without the names of the candidates. -/
def outcome (longopts : List LongOption) (longOnly : Bool) (name : Str) :
    Option (LongOption × Nat) × Bool :=
  match longopts.zipIdx.find? fun o => o.1.name.1 = name with
  | some o => (some o, false)
  | none => longopts.zipIdx.foldl (scanAbbrev longOnly name) (none, false)

/-- The match that an outcome stands for. -/
def ofOutcome (names : Option (List Str)) : Option (LongOption × Nat) × Bool → LongMatch
  | (_, true) => .ambiguous names
  | (some (p, index), false) => .found p index
  | (none, false) => .unknown

theorem matchLong_eq (longopts : List LongOption) :
    ∃ names, matchLong longopts longOnly printErrors mallocOk name =
      ofOutcome names (outcome longopts longOnly name) := by
  unfold matchLong outcome
  cases longopts.zipIdx.find? fun o => o.1.name.1 = name with
  | some o => exact ⟨none, rfl⟩
  | none =>
    have hfold := @foldl_abbrevStep longOnly printErrors mallocOk longopts.length name
      longopts.zipIdx ⟨none, none, false⟩
    have hnew : ((⟨none, none, false⟩ : Abbrev).pfound, (⟨none, none, false⟩ : Abbrev).marked) =
        (none, false) := rfl
    rw [hnew] at hfold
    dsimp only
    rw [← hfold]
    generalize longopts.zipIdx.foldl _ _ = s
    have hmarked : s.ambigSet.isSome ∨ s.ambigFallback ↔ s.marked = true := by
      simp [Abbrev.marked]
    cases hm : s.marked with
    | true =>
      rw [if_pos (hmarked.mpr hm)]
      exact ⟨_, rfl⟩
    | false =>
      rw [if_neg fun h => by simp [hmarked.mp h] at hm]
      cases s.pfound with
      | none => exact ⟨none, rfl⟩
      | some o => exact ⟨none, rfl⟩

/-- The two outcomes are of the same kind, and the same where an option is found. -/
inductive SameMatch : LongMatch → LongMatch → Prop
  | ambiguous (names names' : Option (List Str)) : SameMatch (.ambiguous names) (.ambiguous names')
  | found (p : LongOption) (index : Nat) : SameMatch (.found p index) (.found p index)
  | unknown : SameMatch .unknown .unknown

theorem matchLong_same (longopts : List LongOption) (printErrors' mallocOk' : Bool) :
    SameMatch (matchLong longopts longOnly printErrors mallocOk name)
      (matchLong longopts longOnly printErrors' mallocOk' name) := by
  obtain ⟨names, h⟩ := @matchLong_eq longOnly printErrors mallocOk name longopts
  obtain ⟨names', h'⟩ := @matchLong_eq longOnly printErrors' mallocOk' name longopts
  rw [h, h']
  rcases outcome longopts longOnly name with ⟨_ | o, _ | _⟩
  · exact .unknown
  · exact .ambiguous names names'
  · exact .found o.1 o.2
  · exact .ambiguous names names'

theorem scanAbbrev_fst (s : Option (LongOption × Nat) × Bool) (o : LongOption × Nat) :
    (scanAbbrev longOnly name s o).1 = s.1 ∨ (scanAbbrev longOnly name s o).1 = some o := by
  unfold scanAbbrev
  split
  · cases s.1 with
    | none => exact .inr rfl
    | some found => exact .inl rfl
  · exact .inl rfl

theorem mem_of_foldl_scanAbbrev {o : LongOption × Nat} (l : List (LongOption × Nat))
    (s : Option (LongOption × Nat) × Bool)
    (h : (l.foldl (scanAbbrev longOnly name) s).1 = some o) : s.1 = some o ∨ o ∈ l := by
  induction l generalizing s with
  | nil => exact .inl h
  | cons o' l ih =>
    rcases ih _ h with hs | hm
    · rcases scanAbbrev_fst s o' with heq | heq
      · exact .inl (heq ▸ hs)
      · obtain rfl := Option.some.inj (heq.symm.trans hs)
        exact .inr List.mem_cons_self
    · exact .inr (List.mem_cons_of_mem _ hm)

/-- A match is one of the options. -/
theorem mem_of_found {longopts : List LongOption} {p : LongOption} {index : Nat}
    (h : matchLong longopts longOnly printErrors mallocOk name = .found p index) :
    p ∈ longopts := by
  have hout : outcome longopts longOnly name = (some (p, index), false) := by
    obtain ⟨names, heq⟩ := @matchLong_eq longOnly printErrors mallocOk name longopts
    rw [h] at heq
    generalize outcome longopts longOnly name = o at heq ⊢
    rcases o with ⟨_ | o, _ | _⟩
    · cases heq
    · cases heq
    · obtain ⟨rfl, rfl⟩ := LongMatch.found.inj heq
      rfl
    · cases heq
  have hmem : (p, index) ∈ longopts.zipIdx := by
    unfold outcome at hout
    cases hf : longopts.zipIdx.find? fun o => o.1.name.1 = name with
    | some o =>
      rw [hf] at hout
      obtain rfl := Option.some.inj (Prod.mk.inj hout).1
      exact List.mem_of_find?_eq_some hf
    | none =>
      rw [hf] at hout
      exact (mem_of_foldl_scanAbbrev _ _ (Prod.ext_iff.mp hout).1).resolve_left nofun
  exact List.fst_mem_of_mem_zipIdx hmem

end Librecompat.Getopt
