/-
  `re_node_set_merge`.

  The first loop goes down both sets and stages the elements of `src` that are not in `dest`
  (`Collecting`: of `src` the elements `q` are done, of `dest` the elements `qd` are passed, and
  these are above all that is left of `src`). `merge_spec` puts it together with the in-place
  merge.
-/
import Librecompat.NodeSet.InPlace

namespace Librecompat.NodeSet

open Librecompat.Lib
open Librecompat.Regex (RegErrcode REG_NOERROR REG_ESPACE)

variable {xs d : List Int}

/-! ## Room -/

theorem grow_spec {set : ReNodeSet} (h : Holds set xs) (small : Bool) (newAlloc need : Int)
    (hle : set.alloc ≤ newAlloc) (hsmall : small = true → need ≤ newAlloc)
    (hbig : small = false → need ≤ set.alloc) :
    ∃ set', grow true set small newAlloc = some set' ∧ Holds set' xs ∧ need ≤ set'.alloc := by
  cases small with
  | false => exact ⟨set, rfl, h, hbig rfl⟩
  | true =>
    obtain ⟨top, htop, halloc⟩ := h.exists_top
    have hlen := h.alloc
    have hcells : reRealloc set.elems newAlloc =
        set.elems ++ List.replicate (newAlloc.toNat - set.elems.length) none :=
      resizeCells_of_le (by omega)
    refine ⟨{ set with alloc := newAlloc, elems := reRealloc set.elems newAlloc }, rfl,
      ⟨h.sorted, h.nelem, ?_, ?_⟩, hsmall rfl⟩
    · rw [hcells, List.length_append, List.length_replicate]
      simp only
      omega
    · exact ⟨_, by rw [hcells, htop, List.append_assoc]⟩

/-- A block with `n` unused cells behind the elements. -/
theorem Holds.exists_staged {set : ReNodeSet} (h : Holds set d) {n : Nat}
    (hn : (d.length + n : Int) ≤ set.alloc) :
    ∃ mid top, set.elems = staged d [] mid top ∧ mid.length = n ∧
      set.alloc = d.length + n + top.length := by
  obtain ⟨top, htop, halloc⟩ := h.exists_top
  have hlen : n ≤ top.length := by omega
  refine ⟨top.take n, top.drop n, ?_, List.length_take_of_le hlen, ?_⟩
  · rw [htop]
    simp [staged]
  · rw [halloc, List.length_drop]
    omega

/-! ## The elements that are missing -/

/-- The elements of `q` that `d` lacks. -/
def lacking (d q : List Int) : List Int := q.filter (· ∉ d)

theorem mem_lacking {q : List Int} {x : Int} : x ∈ lacking d q ↔ x ∈ q ∧ x ∉ d := by
  simp [lacking]

theorem length_lacking_le (d q : List Int) : (lacking d q).length ≤ q.length :=
  List.length_filter_le _ _

theorem lacking_cons_of_mem {x : Int} (q : List Int) (h : x ∈ d) :
    lacking d (x :: q) = lacking d q := by
  simp [lacking, h]

theorem lacking_cons_of_not_mem {x : Int} (q : List Int) (h : x ∉ d) :
    lacking d (x :: q) = x :: lacking d q := by
  simp [lacking, h]

structure Collecting (xs d p q pd qd : List Int) (mid : Cells) : Prop where
  source : xs = p ++ q
  dest : d = pd ++ qd
  below : ∀ x ∈ p, ∀ y ∈ qd, x < y
  room : mid.length + (lacking d q).length = 2 * xs.length

/-- The state of the loop as the invariant has it. -/
def missingState (d p q pd : List Int) (mid top : Cells) : Missing :=
  ⟨staged d (lacking d q) mid top, d.length + mid.length, p.length - 1, pd.length - 1⟩

theorem missingPass_spec {src : ReNodeSet} (h : Holds src xs) (hd : d.Pairwise (· < ·))
    {p q pd qd : List Int} {mid : Cells} (top : Cells) (hI : Collecting xs d p q pd qd mid) :
    (∃ p' q' pd' qd' mid', missingPass src (missingState d p q pd mid top) =
        some (.inl (missingState d p' q' pd' mid' top)) ∧ Collecting xs d p' q' pd' qd' mid' ∧
      p'.length + pd'.length < p.length + pd.length) ∨
    missingPass src (missingState d p q pd mid top) =
        some (.inr (missingState d p q pd mid top)) ∧ (p = [] ∨ pd = []) := by
  obtain ⟨hsource, hdest, hbelow, hroom⟩ := hI
  rcases List.eq_nil_or_concat' p with rfl | ⟨p, x, rfl⟩
  · exact .inr ⟨by simp [missingPass, missingState], .inl rfl⟩
  rcases List.eq_nil_or_concat' pd with rfl | ⟨pd, y, rfl⟩
  · exact .inr ⟨by simp [missingPass, missingState], .inr rfl⟩
  left
  have hs := h.sorted
  have hpx := sorted_last (hsource ▸ hs)
  have hpdy := sorted_last (hdest ▸ hd)
  set s := missingState d (p ++ [x]) q (pd ++ [y]) mid top with hstate
  have hcond : s.is ≥ 0 ∧ s.id ≥ 0 := by simp [s, missingState]
  have hready : readCell s.elems s.id = some y := by
    have hcell := readCell_staged pd qd y (lacking d q) mid top (i := s.id)
      (by simp [s, missingState])
    simpa [s, missingState, hdest] using hcell
  have hreadx : readCell src.elems s.is = some x := by
    have hsource' : xs = p ++ x :: q := by simp [hsource]
    exact (hsource' ▸ h).read (by simp [s, missingState])
  simp only [missingPass, hcond, and_self, if_true, hready, hreadx, Option.bind_eq_bind,
    Option.bind_some]
  have hlack := length_lacking_le d q
  have hxs := congrArg List.length hsource
  simp only [List.length_append, List.length_singleton] at hxs
  rcases lt_trichotomy y x with hlt | heq | hgt
  · -- `x` is between `y` and what was passed of `dest`
    have hx : x ∉ d := by
      rw [hdest]
      exact not_mem_between hpdy hlt (hbelow x (by simp))
    have hmid : mid ≠ [] := by
      rintro rfl
      simp at hroom
      omega
    obtain ⟨mid, c, rfl⟩ := (List.eq_nil_or_concat' mid).resolve_left hmid
    refine ⟨p, x :: q, pd ++ [y], qd, mid, ?_, ⟨by simp [hsource], hdest,
      fun u hu => hbelow u (by simp [hu]), ?_⟩, by simp⟩
    · have hset := setAt_staged d (lacking d q) mid top c x (i := s.sbase - 1)
        (by simp [s, missingState]; omega)
      rw [if_neg hlt.ne, if_pos hlt]
      simp only [s, missingState] at hset ⊢
      rw [hset, Option.bind_some, lacking_cons_of_not_mem q hx]
      simp
      omega
    · rw [lacking_cons_of_not_mem q hx, List.length_cons]
      simp only [List.length_append, List.length_singleton] at hroom
      omega
  · subst heq
    have hy : y ∈ d := by
      rw [hdest]
      simp
    refine ⟨p, y :: q, pd, y :: qd, mid, ?_, ⟨by simp [hsource], by simp [hdest], ?_, ?_⟩,
      by simp; omega⟩
    · rw [if_pos rfl]
      simp [s, missingState, lacking_cons_of_mem q hy]
    · exact fun u hu => List.forall_mem_cons.mpr ⟨hpx u hu, hbelow u (by simp [hu])⟩
    · rwa [lacking_cons_of_mem q hy]
  · refine ⟨p ++ [x], q, pd, y :: qd, mid, ?_, ⟨hsource, by simp [hdest], ?_, hroom⟩, by simp⟩
    · rw [if_neg hgt.ne', if_neg (not_lt_of_gt hgt)]
      simp [s, missingState]
    · exact fun u hu => List.forall_mem_cons.mpr ⟨lt_of_last hpx hgt u hu, hbelow u hu⟩

/-- When `dest` is exhausted, all that is left of `src` is missing. -/
theorem lacking_left {p q pd qd : List Int} {mid : Cells} (hI : Collecting xs d p q pd qd mid)
    (hexit : p = [] ∨ pd = []) : lacking d xs = p ++ lacking d q := by
  rw [hI.source]
  rcases hexit with rfl | rfl
  · rfl
  · have hp : p.filter (· ∉ d) = p := by
      rw [List.filter_eq_self]
      intro x hx
      rw [hI.dest, List.nil_append, decide_eq_true_eq]
      exact fun hmem => lt_irrefl x (hI.below x hx x hmem)
    rw [lacking, List.filter_append, hp, lacking]

/-- The first loop with the copy behind it: all that is missing is staged. -/
theorem collect_spec {src : ReNodeSet} (h : Holds src xs) (hd : d.Pairwise (· < ·))
    {mid : Cells} (top : Cells) (hmid : mid.length = 2 * xs.length) :
    ∃ s mid', tryLoop (missingPass src) (xs.length + d.length + 1)
        ⟨staged d [] mid top, d.length + mid.length, xs.length - 1, d.length - 1⟩ = some s ∧
      mid'.length + (lacking d xs).length = mid.length ∧
      (s.is < 0 → s.elems = staged d (lacking d xs) mid' top ∧
        s.sbase = d.length + mid'.length) ∧
      (0 ≤ s.is → ((getRange src.elems 0 (s.is + 1)).bind fun ys =>
          setRange s.elems (s.sbase - (s.is + 1)) ys) = some (staged d (lacking d xs) mid' top) ∧
        s.sbase - (s.is + 1) = d.length + mid'.length) := by
  let I (s : Missing) : Prop := ∃ p q pd qd mid, s = missingState d p q pd mid top ∧
    Collecting xs d p q pd qd mid
  let Q (s : Missing) : Prop := ∃ p q pd qd mid, s = missingState d p q pd mid top ∧
    Collecting xs d p q pd qd mid ∧ (p = [] ∨ pd = [])
  let μ (s : Missing) : Nat := (s.is + 1).toNat + (s.id + 1).toNat
  have hpass : ∀ s, I s → (∃ s', missingPass src s = some (.inl s') ∧ I s' ∧ μ s' < μ s) ∨
      ∃ r, missingPass src s = some (.inr r) ∧ Q r := by
    rintro s ⟨p, q, pd, qd, mid, rfl, hI⟩
    obtain ⟨p', q', pd', qd', mid', hb, hI', hlt⟩ | ⟨hb, hexit⟩ := missingPass_spec h hd top hI
    · refine .inl ⟨_, hb, ⟨p', q', pd', qd', mid', rfl, hI'⟩, ?_⟩
      simp only [μ, missingState]
      omega
    · exact .inr ⟨_, hb, p, q, pd, qd, mid, rfl, hI, hexit⟩
  have hstart : Collecting xs d xs [] d [] mid := ⟨by simp, by simp, by simp, by simpa [lacking]⟩
  obtain ⟨s, hloop, p, q, pd, qd, m, rfl, hI, hexit⟩ := tryLoop_total μ hpass
    (s := ⟨staged d [] mid top, d.length + mid.length, xs.length - 1, d.length - 1⟩)
    ⟨xs, [], d, [], mid, rfl, hstart⟩ (n := xs.length + d.length + 1) (by simp [μ])
  have hleft := lacking_left hI hexit
  have hroom := hI.room
  have hlack := length_lacking_le d q
  have hxs := congrArg List.length hI.source
  have hlen := congrArg List.length hleft
  simp only [List.length_append] at hxs hlen
  refine ⟨_, m.take (m.length - p.length), hloop, by rw [List.length_take]; omega, ?_, ?_⟩
  · intro hneg
    have hp : p = [] := List.length_eq_zero_iff.mp (by simp only [missingState] at hneg; omega)
    subst hp
    rw [hleft]
    simp [missingState]
  · intro hpos
    have hxs : Holds src ([] ++ p ++ q) := by simpa using hI.source ▸ h
    have hread := hxs.readRange (i := 0) (n := (p.length : Int) - 1 + 1) rfl (by simp)
    have hold : (m.drop (m.length - p.length)).length = p.length := by
      rw [List.length_drop]
      omega
    have hwrite := setRange_staged d p (lacking d q) (m.take (m.length - p.length)) top
      (m.drop (m.length - p.length)) hold
      (i := d.length + m.length - ((p.length : Int) - 1 + 1)) (by rw [List.length_take]; omega)
    rw [List.take_append_drop] at hwrite
    refine ⟨?_, ?_⟩
    · simp only [missingState, hread, hwrite, Option.bind_some, hleft]
    · simp only [missingState, List.length_take]
      omega

/-- The first loop with what follows it: the rest of `src`, if there is one, is staged too. -/
theorem stage_spec {src : ReNodeSet} (h : Holds src xs) (hd : d.Pairwise (· < ·)) {mid : Cells}
    (top : Cells) (hmid : mid.length = 2 * xs.length) :
    ∃ s s' mid', tryLoop (missingPass src) (xs.length + d.length + 1)
        ⟨staged d [] mid top, d.length + mid.length, xs.length - 1, d.length - 1⟩ = some s ∧
      (if s.is ≥ 0 then
          (getRange src.elems 0 (s.is + 1)).bind fun ys =>
            (setRange s.elems (s.sbase - (s.is + 1)) ys).bind fun elems =>
              some { s with elems := elems, sbase := s.sbase - (s.is + 1) }
        else some s) = some s' ∧
      s'.elems = staged d (lacking d xs) mid' top ∧ s'.sbase = d.length + mid'.length ∧
      mid'.length + (lacking d xs).length = mid.length := by
  obtain ⟨s, mid', hloop, hlen, hneg, hpos⟩ := collect_spec h hd top hmid
  by_cases his : s.is ≥ 0
  · obtain ⟨hcopy, hsbase⟩ := hpos his
    refine ⟨s, { s with elems := staged d (lacking d xs) mid' top, sbase := s.sbase - (s.is + 1) },
      mid', hloop, ?_, rfl, hsbase, hlen⟩
    rw [if_pos his, ← Option.bind_assoc, hcopy, Option.bind_some]
  · obtain ⟨hel, hsbase⟩ := hneg (by omega)
    exact ⟨s, s, mid', hloop, if_neg his, hel, hsbase, hlen⟩

/-! ## The function -/

/-- The in-place merge, if there is anything to merge. -/
theorem slideAll_spec (mid top : Cells) {t : List Int} {gap : Cells} (hd : d.Pairwise (· < ·))
    (ht : t.Pairwise (· < ·)) (hdisj : ∀ x ∈ t, x ∉ d) (hgap : gap.length = t.length) {s₀ : Slide}
    (hs₀ : s₀ = slideState d t mid top d t [] gap) :
    ∃ s, (if s₀.delta > 0 ∧ s₀.id ≥ 0 then slide s₀ else some s₀) = some s ∧
      Slid d t mid top s := by
  have hstart := sliding_start d t hgap
  by_cases hne : d = [] ∨ t = []
  · refine ⟨s₀, if_neg ?_, d, t, [], gap, hs₀, hstart, hne⟩
    rw [hs₀]
    rcases hne with rfl | rfl <;> simp [slideState]
  · obtain ⟨hdne, htne⟩ := not_or.mp hne
    obtain ⟨s, hs, hslid⟩ := slide_spec mid top hd ht hdisj hstart hdne htne
    have hcond : s₀.delta > 0 ∧ s₀.id ≥ 0 := by
      have h1 := List.length_pos_iff.mpr hdne
      have h2 := List.length_pos_iff.mpr htne
      rw [hs₀]
      simp only [slideState]
      omega
    exact ⟨s, by rw [if_pos hcond, hs₀, hs], hslid⟩

/-- The in-place merge of the staged elements, and the copy that follows it. -/
theorem inPlace_spec {t : List Int} (mid top : Cells) (alloc : Int) (hd : d.Pairwise (· < ·))
    (ht : t.Pairwise (· < ·)) (hdisj : ∀ x ∈ t, x ∉ d) (hroom : t.length ≤ mid.length)
    (halloc : alloc = d.length + mid.length + t.length + top.length) {s₀ : Slide}
    (hs₀ : s₀ = ⟨staged d t mid top, d.length + mid.length + t.length - 1, d.length - 1,
      t.length⟩) :
    ∃ s elems ys, (if s₀.delta > 0 ∧ s₀.id ≥ 0 then slide s₀ else some s₀) = some s ∧
      memcpy s.elems 0 (d.length + mid.length) s.delta = some elems ∧
      (s.delta = 0 → s.elems = elems) ∧ Holds ⟨alloc, d.length + t.length, elems⟩ ys ∧
      ∀ x, x ∈ ys ↔ x ∈ d ∨ x ∈ t := by
  obtain ⟨gap, mid, rfl, hgap⟩ : ∃ gap m, mid = gap ++ m ∧ gap.length = t.length :=
    ⟨mid.take t.length, mid.drop t.length, by simp, List.length_take_of_le hroom⟩
  rw [List.length_append, hgap] at hs₀ halloc ⊢
  have hstate : s₀ = slideState d t mid top d t [] gap := by
    rw [hs₀]
    simp [slideState, staged]
    omega
  obtain ⟨s, hs, hslid⟩ := slideAll_spec mid top hd ht hdisj hgap hstate
  obtain ⟨ys, rest, hcopy, hdone, hsorted, hmem, hlen, htotal⟩ := finish_spec hd ht hslid
  refine ⟨s, _, ys, hs, ?_, hdone, ⟨hsorted, ?_, ?_, rest, rfl⟩, hmem⟩
  · rw [← hcopy]
    push_cast
    rw [add_assoc]
  · simp only
    omega
  · simp only
    rw [htotal]
    omega

/-- The elements of a set that is not empty are copied into one that is. -/
theorem copy_spec {src : ReNodeSet} (h : Holds src xs) {elems : Cells}
    (hroom : xs.length ≤ elems.length) :
    ∃ top, ((getRange src.elems 0 src.nelem).bind fun ys => setRange elems 0 ys) =
      some (xs.map some ++ top) ∧ xs.length + top.length = elems.length := by
  have hread := h.readAll
  have hwrite := setRange_append [] (elems.drop xs.length) (xs.map some)
    (b := elems.take xs.length) (i := 0) rfl (by simpa using hroom)
  rw [List.nil_append, List.take_append_drop, List.nil_append] at hwrite
  refine ⟨elems.drop xs.length, by rw [hread, Option.bind_some, hwrite], ?_⟩
  rw [List.length_drop]
  omega

/-- What follows the allocation. -/
theorem mergeInto_spec {dest src : ReNodeSet} (h : Holds dest d) (hsrc : Holds src xs)
    (hroom : 2 * src.nelem + dest.nelem ≤ dest.alloc) :
    ∃ set ys, merge dest src = some set ∧ Holds set ys ∧ ∀ x, x ∈ ys ↔ x ∈ d ∨ x ∈ xs := by
  have hn := hsrc.nelem
  have hnd := h.nelem
  unfold merge
  by_cases hempty : dest.nelem = 0
  · have hnil : d = [] := List.length_eq_zero_iff.mp (by omega)
    have hlen := h.alloc
    obtain ⟨top, hcopy, htotal⟩ := copy_spec hsrc (by omega : xs.length ≤ dest.elems.length)
    rw [if_pos hempty]
    simp only [Option.bind_eq_bind]
    refine ⟨⟨dest.alloc, src.nelem, xs.map some ++ top⟩, xs,
      by rw [← Option.bind_assoc, hcopy, Option.bind_some], ⟨hsrc.sorted, hn, ?_, top, rfl⟩,
      by simp [hnil]⟩
    simp only [List.length_append, List.length_map]
    omega
  · rw [if_neg hempty]
    obtain ⟨mid, top, helems, hmid, halloc⟩ := h.exists_staged (n := 2 * xs.length) (by omega)
    obtain ⟨s, s', mid', hloop, hs', hel, hsbase, hlen⟩ := stage_spec hsrc h.sorted top hmid
    have hlack := length_lacking_le d xs
    have hsorted : (lacking d xs).Pairwise (· < ·) := hsrc.sorted.sublist List.filter_sublist
    have hmem : ∀ x, x ∈ d ∨ x ∈ lacking d xs ↔ x ∈ d ∨ x ∈ xs := by
      intro x
      rw [mem_lacking]
      tauto
    have hdelta : dest.nelem + 2 * src.nelem - 1 - s'.sbase + 1 = (lacking d xs).length := by omega
    have hfuel : src.nelem.toNat + dest.nelem.toNat + 1 = xs.length + d.length + 1 := by omega
    have hinit : (⟨dest.elems, dest.nelem + 2 * src.nelem, src.nelem - 1, dest.nelem - 1⟩ :
        Missing) = ⟨staged d [] mid top, d.length + mid.length, xs.length - 1, d.length - 1⟩ := by
      rw [helems, hn, hnd, hmid]
      push_cast
      rfl
    simp only [hfuel, hinit, hloop, Option.bind_eq_bind, Option.bind_some, hs', hdelta]
    obtain ⟨t, elems, ys, hslide, hcopy, hdone, hholds, hys⟩ := inPlace_spec mid' top dest.alloc
      h.sorted hsorted (fun x hx => (mem_lacking.mp hx).2) (by omega) (by omega) rfl
    by_cases hzero : (lacking d xs).length = 0
    · have hnil := List.length_eq_zero_iff.mp hzero
      refine ⟨_, d, if_pos (by omega), ⟨h.sorted, hnd, ?_, ?_⟩, ?_⟩
      · rw [hel, length_staged]
        simp only
        omega
      · exact ⟨mid' ++ (lacking d xs).map some ++ top, by rw [hel]; simp [staged]⟩
      · intro x
        rw [← hmem x, hnil]
        simp
    · have hgo : dest.nelem + 2 * src.nelem - 1 = d.length + mid'.length +
          (lacking d xs).length - 1 := by omega
      rw [if_neg (by omega), hgo, hel, hnd]
      rw [if_pos ⟨by simp; omega, by simp; omega⟩] at hslide
      rw [hslide, Option.bind_some]
      refine ⟨⟨dest.alloc, d.length + (lacking d xs).length, elems⟩, ys, ?_, hholds, ?_⟩
      · split
        · next hz => rw [hdone hz]
        · rw [hsbase, hcopy, Option.bind_some]
      · intro x
        rw [hys x, hmem x]

/-- `re_node_set_merge`. -/
theorem merge_spec {dest : ReNodeSet} {src : Option ReNodeSet} (h : Holds dest d)
    (hsrc : HoldsOpt src xs) :
    ∃ set ys, reNodeSetMerge true dest src = some (set, REG_NOERROR) ∧ Holds set ys ∧
      ∀ x, x ∈ ys ↔ x ∈ d ∨ x ∈ xs := by
  unfold reNodeSetMerge
  cases src with
  | none =>
    obtain rfl : xs = [] := hsrc
    exact ⟨dest, d, rfl, h, by simp⟩
  | some src =>
    replace hsrc : Holds src xs := hsrc
    have hn := hsrc.nelem
    by_cases hempty : src.nelem = 0
    · have hnil : xs = [] := List.length_eq_zero_iff.mp (by omega)
      subst hnil
      exact ⟨dest, d, if_pos hempty, h, by simp⟩
    · have hle := h.nelem_le
      have hnd := h.nelem
      obtain ⟨dest', hgrow, h', halloc⟩ := grow_spec h
        (dest.alloc < 2 * src.nelem + dest.nelem) (2 * (src.nelem + dest.alloc))
        (2 * src.nelem + dest.nelem) (by omega) (by simp; omega) (by simp)
      have hnd' := h'.nelem
      obtain ⟨set, ys, hset, hholds, hmem⟩ := mergeInto_spec h' hsrc (by omega)
      exact ⟨set, ys, by simp only [if_neg hempty, hgrow, hset, Option.map_some], hholds, hmem⟩

end Librecompat.NodeSet
