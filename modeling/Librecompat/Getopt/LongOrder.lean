/-
  The search for a long option does not depend on the order of `longopts`.

  `Resolves` says what a text can stand for in a table of options, by membership alone: the option
  of that name, or else one of the options whose name starts with it, if they are all alike.
  `matchLong_resolves` says that the two searches come to one of these, `Resolves.alike` that all of
  these differ in name only, and `Resolves.perm` that the order of the table is nothing to it.
-/
import Librecompat.Getopt.LongMatch
import Mathlib.Data.List.Nodup

namespace Librecompat.Getopt

/-- Two different options have `name` as a prefix. -/
def Ambiguous (longopts : List LongOption) (longOnly : Bool) (name : Str) : Prop :=
  ∃ p ∈ longopts, ∃ q ∈ longopts, name <+: p.name.1 ∧ name <+: q.name.1 ∧ p ≠ q ∧
    (longOnly ∨ p.hasArg ≠ q.hasArg ∨ p.flag ≠ q.flag ∨ p.val ≠ q.val)

/-- What the text `name` may stand for. -/
inductive Resolves (longopts : List LongOption) (longOnly : Bool) (name : Str) : LongMatch → Prop
  | exact (p : LongOption) (index : Nat) (hp : p ∈ longopts) (hname : p.name.1 = name) :
    Resolves longopts longOnly name (.found p index)
  | ambiguous (names : Option (List Str)) (hno : ∀ p ∈ longopts, p.name.1 ≠ name)
      (h : Ambiguous longopts longOnly name) :
    Resolves longopts longOnly name (.ambiguous names)
  | candidate (p : LongOption) (index : Nat) (hno : ∀ p ∈ longopts, p.name.1 ≠ name)
      (h : ¬ Ambiguous longopts longOnly name) (hp : p ∈ longopts) (hname : name <+: p.name.1) :
    Resolves longopts longOnly name (.found p index)
  | unknown (h : ∀ p ∈ longopts, ¬ name <+: p.name.1) : Resolves longopts longOnly name .unknown

/-- The two matches are of the same kind, and options that are found differ in name only. -/
inductive Alike : LongMatch → LongMatch → Prop
  | ambiguous (names names' : Option (List Str)) : Alike (.ambiguous names) (.ambiguous names')
  | found (p q : LongOption) (index index' : Nat) (hasArg : p.hasArg = q.hasArg)
      (flag : p.flag = q.flag) (val : p.val = q.val) : Alike (.found p index) (.found q index')
  | unknown : Alike .unknown .unknown

variable {longopts longopts' : List LongOption} {longOnly printErrors mallocOk : Bool} {name : Str}

/-! ## The candidates -/

/-- The first candidate is kept, and compared with all later ones. -/
theorem foldl_scanAbbrev (l : List (LongOption × Nat)) (b : Bool) :
    (∀ found, l.foldl (scanAbbrev longOnly name) (some found, b) =
      (some found, b || (l.filter fun o => name.isPrefixOf o.1.name.1).any
        fun o => conflicts longOnly found.1 o.1)) ∧
    l.foldl (scanAbbrev longOnly name) (none, b) =
      match l.filter fun o => name.isPrefixOf o.1.name.1 with
      | [] => (none, b)
      | found :: more => (some found, b || more.any fun o => conflicts longOnly found.1 o.1) := by
  induction l generalizing b with
  | nil => exact ⟨fun _ => by simp, rfl⟩
  | cons o l ih =>
    have hcons : (o :: l).filter (fun o => name.isPrefixOf o.1.name.1) =
        if name.isPrefixOf o.1.name.1 then o :: l.filter fun o => name.isPrefixOf o.1.name.1
        else l.filter fun o => name.isPrefixOf o.1.name.1 := List.filter_cons
    simp only [List.foldl_cons, scanAbbrev, hcons]
    split
    · refine ⟨fun found => ?_, ?_⟩
      · rw [(ih _).1, List.any_cons, Bool.or_assoc]
      · rw [(ih _).1]
    · exact ih b

/-- The candidates with their indices. -/
def candidates (longopts : List LongOption) (name : Str) : List (LongOption × Nat) :=
  longopts.zipIdx.filter fun o => name.isPrefixOf o.1.name.1

theorem mem_candidates {p : LongOption} :
    (∃ index, (p, index) ∈ candidates longopts name) ↔ p ∈ longopts ∧ name <+: p.name.1 := by
  constructor
  · rintro ⟨index, hmem⟩
    obtain ⟨hmem, hname⟩ := List.mem_filter.mp hmem
    exact ⟨List.fst_mem_of_mem_zipIdx hmem, List.isPrefixOf_iff_prefix.mp hname⟩
  · rintro ⟨hmem, hname⟩
    rw [← List.zipIdx_map_fst 0 longopts] at hmem
    obtain ⟨o, ho, rfl⟩ := List.mem_map.mp hmem
    exact ⟨o.2, List.mem_filter.mpr ⟨ho, List.isPrefixOf_iff_prefix.mpr hname⟩⟩

theorem candidates_names_nodup (hnames : (longopts.map (·.name)).Nodup) :
    ((candidates longopts name).map (·.1.name)).Nodup := by
  have hsub : ((candidates longopts name).map (·.1.name)).Sublist (longopts.map (·.name)) := by
    have hfst : longopts.map (·.name) = longopts.zipIdx.map (·.1.name) := by
      conv_lhs => rw [← List.zipIdx_map_fst 0 longopts, List.map_map]
      rfl
    rw [hfst]
    exact List.filter_sublist.map _
  exact hsub.nodup hnames

/-- The first candidate conflicts with a later one exactly when the text is ambiguous. -/
theorem any_conflicts_iff {found : LongOption × Nat} {more : List (LongOption × Nat)}
    (hnames : (longopts.map (·.name)).Nodup) (hcand : candidates longopts name = found :: more) :
    (more.any fun o => conflicts longOnly found.1 o.1) = true ↔
      Ambiguous longopts longOnly name := by
  have hmem : ∀ p, p ∈ longopts ∧ name <+: p.name.1 ↔ p = found.1 ∨ ∃ o ∈ more, o.1 = p := by
    intro p
    rw [← mem_candidates, hcand]
    constructor
    · rintro ⟨index, h⟩
      rcases List.mem_cons.mp h with h | h
      · exact .inl (congrArg Prod.fst h)
      · exact .inr ⟨_, h, rfl⟩
    · rintro (rfl | ⟨o, ho, rfl⟩)
      · exact ⟨found.2, List.mem_cons_self⟩
      · exact ⟨o.2, List.mem_cons_of_mem _ ho⟩
  have hnodup := @candidates_names_nodup longopts name hnames
  rw [hcand, List.map_cons, List.nodup_cons] at hnodup
  rw [List.any_eq_true]
  constructor
  · rintro ⟨o, ho, hconf⟩
    obtain ⟨hfound, hfname⟩ := (hmem found.1).mpr (.inl rfl)
    obtain ⟨hq, hqname⟩ := (hmem o.1).mpr (.inr ⟨o, ho, rfl⟩)
    have hne : found.1 ≠ o.1 := fun heq =>
      hnodup.1 (heq ▸ List.mem_map.mpr ⟨o, ho, rfl⟩)
    exact ⟨found.1, hfound, o.1, hq, hfname, hqname, hne, of_decide_eq_true hconf⟩
  · rintro ⟨p, hp, q, hq, hpname, hqname, hne, hconf⟩
    by_contra hall
    have hsame : ∀ r, r = found.1 ∨ (∃ o ∈ more, o.1 = r) → r = found.1 ∨
        ¬ conflicts longOnly found.1 r := by
      rintro r (rfl | ⟨o, ho, rfl⟩)
      · exact .inl rfl
      · exact .inr fun h => hall ⟨o, ho, decide_eq_true h⟩
    have hp' := hsame p ((hmem p).mp ⟨hp, hpname⟩)
    have hq' := hsame q ((hmem q).mp ⟨hq, hqname⟩)
    unfold conflicts at hp' hq'
    grind

/-- The searches come to something that the text stands for. -/
theorem matchLong_resolves (hnames : (longopts.map (·.name)).Nodup) :
    Resolves longopts longOnly name (matchLong longopts longOnly printErrors mallocOk name) := by
  obtain ⟨names, hmatch⟩ := @matchLong_eq longOnly printErrors mallocOk name longopts
  rw [hmatch]
  unfold outcome
  cases hfind : longopts.zipIdx.find? fun o => o.1.name.1 = name with
  | some o =>
    exact .exact o.1 o.2 (List.fst_mem_of_mem_zipIdx (List.mem_of_find?_eq_some hfind))
      (by simpa using List.find?_some hfind)
  | none =>
    have hno : ∀ p ∈ longopts, p.name.1 ≠ name := by
      intro p hp
      rw [← List.zipIdx_map_fst 0 longopts] at hp
      obtain ⟨o, ho, rfl⟩ := List.mem_map.mp hp
      simpa using List.find?_eq_none.mp hfind o ho
    dsimp only
    rw [(foldl_scanAbbrev longopts.zipIdx false).2]
    cases hcand : longopts.zipIdx.filter fun o => name.isPrefixOf o.1.name.1 with
    | nil =>
      refine .unknown fun p hp hname => ?_
      obtain ⟨index, hmem⟩ := mem_candidates.mpr ⟨hp, hname⟩
      rw [candidates, hcand] at hmem
      exact absurd hmem List.not_mem_nil
    | cons found more =>
      have hiff := @any_conflicts_iff longopts longOnly name found more hnames hcand
      dsimp only
      rw [Bool.false_or]
      cases hany : more.any fun o => conflicts longOnly found.1 o.1 with
      | true => exact .ambiguous names hno (hiff.mp hany)
      | false =>
        have hmem : (found.1, found.2) ∈ candidates longopts name := by
          rw [candidates, hcand]
          exact List.mem_cons_self
        obtain ⟨hp, hname⟩ := mem_candidates.mp ⟨found.2, hmem⟩
        exact .candidate found.1 found.2 hno (fun h => by rw [hiff.mpr h] at hany; cases hany) hp
          hname

/-- Everything that the text may stand for is alike. -/
theorem Resolves.alike {m m' : LongMatch} (hnames : (longopts.map (·.name)).Nodup)
    (h : Resolves longopts longOnly name m) (h' : Resolves longopts longOnly name m') :
    Alike m m' := by
  have hexact : ∀ {p : LongOption}, p.name.1 = name → name <+: p.name.1 :=
    fun hname => hname ▸ List.prefix_refl _
  cases h with
  | exact p index hp hname =>
    cases h' with
    | exact q index' hq hname' =>
      have heq : p = q :=
        List.inj_on_of_nodup_map hnames hp hq (Subtype.ext (hname.trans hname'.symm))
      subst heq
      exact .found p p index index' rfl rfl rfl
    | ambiguous names hno => exact absurd hname (hno p hp)
    | candidate q index' hno => exact absurd hname (hno p hp)
    | unknown h => exact absurd (hexact hname) (h p hp)
  | ambiguous names hno h =>
    cases h' with
    | exact q index' hq hname' => exact absurd hname' (hno q hq)
    | ambiguous names' => exact .ambiguous names names'
    | candidate q index' _ hnot => exact absurd h hnot
    | unknown hnone =>
      obtain ⟨p, hp, _, _, hname, _⟩ := h
      exact absurd hname (hnone p hp)
  | candidate p index hno hnot hp hname =>
    cases h' with
    | exact q index' hq hname' => exact absurd hname' (hno q hq)
    | ambiguous names' _ h => exact absurd h hnot
    | candidate q index' _ _ hq hname' =>
      have hsame : p = q ∨
          ¬ (longOnly ∨ p.hasArg ≠ q.hasArg ∨ p.flag ≠ q.flag ∨ p.val ≠ q.val) := by
        by_contra hno
        rw [not_or, not_not] at hno
        exact hnot ⟨p, hp, q, hq, hname, hname', hno.1, hno.2⟩
      have hfields : p.hasArg = q.hasArg ∧ p.flag = q.flag ∧ p.val = q.val := by grind
      exact .found p q index index' hfields.1 hfields.2.1 hfields.2.2
    | unknown h => exact absurd hname (h p hp)
  | unknown h =>
    cases h' with
    | exact q index' hq hname' => exact absurd (hexact hname') (h q hq)
    | ambiguous names' _ hamb =>
      obtain ⟨p, hp, _, _, hname, _⟩ := hamb
      exact absurd hname (h p hp)
    | candidate q index' _ _ hq hname' => exact absurd hname' (h q hq)
    | unknown => exact .unknown

/-- What a text may stand for depends on which options there are, not on their order. -/
theorem Resolves.perm {m : LongMatch} (hperm : longopts.Perm longopts')
    (h : Resolves longopts longOnly name m) : Resolves longopts' longOnly name m := by
  have hmem : ∀ p, p ∈ longopts ↔ p ∈ longopts' := fun p => hperm.mem_iff
  have hamb : Ambiguous longopts longOnly name ↔ Ambiguous longopts' longOnly name := by
    simp only [Ambiguous, hmem]
  cases h with
  | exact p index hp hname => exact .exact p index ((hmem p).mp hp) hname
  | ambiguous names hno h =>
    exact .ambiguous names (fun p hp => hno p ((hmem p).mpr hp)) (hamb.mp h)
  | candidate p index hno h hp hname =>
    exact .candidate p index (fun p hp => hno p ((hmem p).mpr hp)) (fun h' => h (hamb.mpr h'))
      ((hmem p).mp hp) hname
  | unknown h => exact .unknown fun p hp => h p ((hmem p).mpr hp)

end Librecompat.Getopt
