/-
  The in-place merge that `re_node_set_add_intersect` and `re_node_set_merge` end with.

  The block starts with the elements `d` of the set; the sorted list `t` of the new ones stands
  further up (`staged`). The loop fills the cells behind `d` from the top: `w` is what is in
  place, `pd` and `pt` are what is left of the two lists, and the gap between `pd` and `w` has a
  cell for each element of `pt` (`Sliding`). So a write never hits an element that is still
  needed. `slide_spec` is the loop, `finish_spec` the copy that follows it.
-/
import Librecompat.NodeSet.Unions

namespace Librecompat.NodeSet

open Librecompat.Lib

variable {d t : List Int} {mid top : Cells}

/-! ## A block with new elements at its top -/

/-- The elements `d`, unused cells, the new elements `t`, and the rest. -/
def staged (d t : List Int) (mid top : Cells) : Cells := d.map some ++ mid ++ t.map some ++ top

@[simp] theorem length_staged (d t : List Int) (mid top : Cells) :
    (staged d t mid top).length = d.length + mid.length + t.length + top.length := by
  simp only [staged, List.length_append, List.length_map]

theorem readCell_staged (p q : List Int) (x : Int) (t : List Int) (mid top : Cells) {i : Int}
    (h : i = p.length) : readCell (staged (p ++ x :: q) t mid top) i = some x := by
  simpa [staged] using readCell_map p q x (mid ++ t.map some ++ top) h

/-- One more element is put in front of the new ones. -/
theorem setAt_staged (d t : List Int) (mid top : Cells) (c : Option Int) (x : Int) {i : Int}
    (h : i = d.length + mid.length) :
    setAt (staged d t (mid ++ [c]) top) i (some x) = some (staged d (x :: t) mid top) := by
  have hset := setAt_append_cons (d.map some ++ mid) (t.map some ++ top) c (some x) (i := i)
    (by simpa using h)
  simpa [staged] using hset

/-- Several elements are put in front of the new ones. -/
theorem setRange_staged (d p t : List Int) (mid top old : Cells) (hlen : old.length = p.length)
    {i : Int} (h : i = d.length + mid.length) :
    setRange (staged d t (mid ++ old) top) i (p.map some) = some (staged d (p ++ t) mid top) := by
  have hset := setRange_append (d.map some ++ mid) (t.map some ++ top) (p.map some) (b := old)
    (i := i) (by simpa using h) (by simpa using hlen)
  simpa [staged] using hset

/-! ## The loop -/

structure Sliding (d t pd pt w : List Int) (gap : Cells) : Prop where
  dest : pd <+: d
  stage : pt <+: t
  sorted : w.Pairwise (· < ·)
  mem : ∀ x, x ∈ w ∨ x ∈ pd ∨ x ∈ pt ↔ x ∈ d ∨ x ∈ t
  above : ∀ x ∈ w, ∀ y, y ∈ pd ∨ y ∈ pt → y < x
  gap : gap.length = pt.length
  length : pd.length + pt.length + w.length = d.length + t.length

/-- The state of the loop as the invariant has it. -/
def slideState (d t : List Int) (mid top : Cells) (pd pt w : List Int) (gap : Cells) : Slide :=
  ⟨pd.map some ++ gap ++ w.map some ++ mid ++ t.map some ++ top,
    d.length + t.length + mid.length + pt.length - 1, pd.length - 1, pt.length⟩

/-- The source of a pass is the last of the new elements that is left. -/
theorem read_stage (d : List Int) (mid top : Cells) (w qt pd pt : List Int) (gap : Cells) (x : Int)
    (hgap : gap.length = (pt ++ [x]).length)
    (hlen : pd.length + (pt ++ [x]).length + w.length = d.length + (pt ++ [x] ++ qt).length) :
    let s := slideState d (pt ++ [x] ++ qt) mid top pd (pt ++ [x]) w gap
    readCell s.elems s.is = some x := by
  intro s
  have hcell := readCell_append_cons (pd.map some ++ gap ++ w.map some ++ mid ++ pt.map some)
    (qt.map some ++ top) x (i := s.is) (by simp [s, slideState] at *; omega)
  simpa [s, slideState] using hcell

/-- What it is compared with is the last element of the set that is left. -/
theorem read_dest (d t : List Int) (mid top : Cells) (w pd pt : List Int) (gap : Cells) (y : Int) :
    let s := slideState d t mid top (pd ++ [y]) pt w gap
    readCell s.elems s.id = some y := by
  intro s
  have hcell := readCell_append_cons (pd.map some) (gap ++ w.map some ++ mid ++ t.map some ++ top) y
    (i := s.id) (by simp [s, slideState])
  simpa [s, slideState] using hcell

/-- The cell written is the last of the gap. -/
theorem set_gap (d t : List Int) (mid top : Cells) (w pd pt : List Int) (gap : Cells)
    (c : Option Int) (x z : Int) (hgap : gap.length = pt.length) :
    let s := slideState d t mid top pd (pt ++ [x]) w (gap ++ [c])
    setAt s.elems (s.id + s.delta) (some z) =
      some (pd.map some ++ gap ++ (z :: w).map some ++ mid ++ t.map some ++ top) := by
  intro s
  have hset := setAt_append_cons (pd.map some ++ gap) (w.map some ++ mid ++ t.map some ++ top) c
    (some z) (i := s.id + s.delta) (by simp [s, slideState]; omega)
  simpa [s, slideState] using hset

/-- The loop is done when one of the two lists is. -/
def Slid (d t : List Int) (mid top : Cells) (s : Slide) : Prop :=
  ∃ pd pt w gap, s = slideState d t mid top pd pt w gap ∧ Sliding d t pd pt w gap ∧
    (pd = [] ∨ pt = [])

/-- The larger of the two last elements comes next. -/
theorem Sliding.next {pd pt w pd' pt' : List Int} {gap gap' : Cells}
    (hI : Sliding d t pd pt w gap) {x : Int} (hx : x ∈ pd ∨ x ∈ pt) (hpd : pd' <+: pd)
    (hpt : pt' <+: pt) (hmem : ∀ y, y ∈ pd ∨ y ∈ pt ↔ y = x ∨ y ∈ pd' ∨ y ∈ pt')
    (hup : ∀ y, y ∈ pd' ∨ y ∈ pt' → y < x) (hgap : gap'.length = pt'.length)
    (hlen : pd'.length + pt'.length + 1 = pd.length + pt.length) :
    Sliding d t pd' pt' (x :: w) gap' := by
  refine ⟨hpd.trans hI.dest, hpt.trans hI.stage, ?_, ?_, ?_, hgap, ?_⟩
  · exact List.pairwise_cons.mpr ⟨fun y hy => hI.above y hy x hx, hI.sorted⟩
  · intro y
    rw [← hI.mem y, hmem y, List.mem_cons]
    tauto
  · intro u hu y hy
    rcases List.mem_cons.mp hu with rfl | hu
    · exact hup y hy
    · exact hI.above u hu y ((hmem y).mpr (.inr hy))
  · have := hI.length
    rw [List.length_cons]
    omega

variable (mid top) in
theorem slidePass_spec (hd : d.Pairwise (· < ·)) (ht : t.Pairwise (· < ·))
    (hdisj : ∀ x ∈ t, x ∉ d) {pd pt w : List Int} {gap : Cells} (hI : Sliding d t pd pt w gap)
    (hpd : pd ≠ []) (hpt : pt ≠ []) :
    ∃ pd' pt' w' gap', Sliding d t pd' pt' w' gap' ∧
      pd'.length + pt'.length < pd.length + pt.length ∧
      slidePass (slideState d t mid top pd pt w gap) =
        some (if pd' = [] ∨ pt' = [] then .inr (slideState d t mid top pd' pt' w' gap')
          else .inl (slideState d t mid top pd' pt' w' gap')) := by
  obtain ⟨pd, y, rfl⟩ := (List.eq_nil_or_concat' pd).resolve_left hpd
  obtain ⟨pt, x, rfl⟩ := (List.eq_nil_or_concat' pt).resolve_left hpt
  have hgapne : gap ≠ [] := by
    rintro rfl
    simpa using hI.gap
  obtain ⟨gap, c, rfl⟩ := (List.eq_nil_or_concat' gap).resolve_left hgapne
  have hgap := hI.gap
  have hlen := hI.length
  obtain ⟨qt, rfl⟩ := hI.stage
  simp only [List.length_append, List.length_singleton] at hgap hlen
  set s := slideState d (pt ++ [x] ++ qt) mid top (pd ++ [y]) (pt ++ [x]) w (gap ++ [c]) with hs
  have hpds := sorted_last (q := []) (by simpa using hd.sublist hI.dest.sublist)
  have hpts := sorted_last ht
  have hlast : gap.length = pt.length := by omega
  have hreadx : readCell s.elems s.is = some x :=
    read_stage d mid top w qt (pd ++ [y]) pt (gap ++ [c]) x (by simpa using hgap) (by simp; omega)
  have hready : readCell s.elems s.id = some y :=
    read_dest d (pt ++ [x] ++ qt) mid top w pd (pt ++ [x]) (gap ++ [c]) y
  have hwrite : ∀ z, setAt s.elems (s.id + s.delta) (some z) =
      some ((pd ++ [y]).map some ++ gap ++ (z :: w).map some ++ mid ++
        (pt ++ [x] ++ qt).map some ++ top) :=
    fun z => set_gap d (pt ++ [x] ++ qt) mid top w (pd ++ [y]) pt gap c x z hlast
  have hne : x ≠ y := by
    rintro rfl
    exact hdisj x (by simp) (hI.dest.subset (by simp))
  by_cases hgt : x > y
  · refine ⟨pd ++ [y], pt, x :: w, gap, hI.next (.inr (by simp)) (List.prefix_refl _)
      (List.prefix_append pt [x]) (fun v => by simp; tauto) ?_ (by omega) (by simp; omega),
      by simp, ?_⟩
    · rintro v (hv | hv)
      · exact lt_of_last hpds hgt v hv
      · exact hpts v hv
    · have hcond : s.delta - 1 = 0 ↔ pd ++ [y] = [] ∨ pt = [] := by simp [s, slideState]
      simp only [slidePass, hreadx, hready, Option.bind_eq_bind, Option.bind_some, if_pos hgt,
        hwrite, hcond]
      simp only [s, slideState, List.length_append, List.length_singleton]
      grind
  · have hlt : x < y := by omega
    refine ⟨pd, pt ++ [x], y :: w, some y :: gap, hI.next (.inl (by simp))
      (List.prefix_append pd [y]) (List.prefix_refl _) (fun v => by simp; tauto) ?_ (by simp; omega)
      (by simp; omega), by simp, ?_⟩
    · rintro v (hv | hv)
      · exact hpds v hv
      · exact lt_of_last hpts hlt v hv
    · have hcond : s.id - 1 < 0 ↔ pd = [] ∨ pt ++ [x] = [] := by
        rw [or_iff_left hpt, ← List.length_eq_zero_iff]
        simp only [s, slideState, List.length_append, List.length_singleton]
        omega
      simp only [slidePass, hreadx, hready, Option.bind_eq_bind, Option.bind_some, if_neg hgt,
        hwrite, hcond]
      simp only [s, slideState, List.length_append, List.length_singleton]
      grind

variable (mid top) in
/-- The loop, or no loop when one of the two lists is empty. -/
theorem slide_spec (hd : d.Pairwise (· < ·)) (ht : t.Pairwise (· < ·)) (hdisj : ∀ x ∈ t, x ∉ d)
    {pd pt w : List Int} {gap : Cells} (hI : Sliding d t pd pt w gap) (hpd : pd ≠ [])
    (hpt : pt ≠ []) :
    ∃ s, slide (slideState d t mid top pd pt w gap) = some s ∧ Slid d t mid top s := by
  let I (s : Slide) : Prop := ∃ pd pt w gap, s = slideState d t mid top pd pt w gap ∧
    Sliding d t pd pt w gap ∧ pd ≠ [] ∧ pt ≠ []
  refine tryLoop_total (I := I) (fun s => (s.id + 1).toNat + s.delta.toNat) ?_
    ⟨pd, pt, w, gap, rfl, hI, hpd, hpt⟩ (Nat.lt_succ_self _)
  rintro s ⟨pd, pt, w, gap, rfl, hI, hpd, hpt⟩
  obtain ⟨pd', pt', w', gap', hI', hlt, hpass⟩ := slidePass_spec mid top hd ht hdisj hI
    hpd hpt
  by_cases hexit : pd' = [] ∨ pt' = []
  · rw [if_pos hexit] at hpass
    exact .inr ⟨_, hpass, pd', pt', w', gap', rfl, hI', hexit⟩
  · rw [if_neg hexit] at hpass
    obtain ⟨hpd', hpt'⟩ := not_or.mp hexit
    refine .inl ⟨_, hpass, ⟨pd', pt', w', gap', rfl, hI', hpd', hpt'⟩, ?_⟩
    simp only [slideState]
    omega

/-! ## What follows the loop -/

theorem memcpy_zero {xs : Cells} {src : Int} (h0 : 0 ≤ src) (h : src ≤ xs.length) :
    memcpy xs 0 src 0 = some xs := by
  obtain ⟨k, rfl⟩ := Int.eq_ofNat_of_zero_le h0
  have hk : k ≤ xs.length := by omega
  have hcopy : memcpy ([] ++ xs.take k ++ [] ++ xs.drop k) 0 k 0 =
      some ([] ++ xs.take k ++ [] ++ xs.drop k) :=
    memcpy_front (xs.take k) [] (xs.drop k) rfl (by simp [hk]) rfl
  simpa using hcopy

/-- The elements of `t` still missing are copied to the front; with none missing there is nothing
    to copy. -/
theorem finish_spec (hd : d.Pairwise (· < ·)) (ht : t.Pairwise (· < ·)) {s : Slide}
    (hs : Slid d t mid top s) :
    ∃ (xs : List Int) (rest : Cells),
      memcpy s.elems 0 (d.length + t.length + mid.length) s.delta = some (xs.map some ++ rest) ∧
      (s.delta = 0 → s.elems = xs.map some ++ rest) ∧ xs.Pairwise (· < ·) ∧
      (∀ x, x ∈ xs ↔ x ∈ d ∨ x ∈ t) ∧ xs.length = d.length + t.length ∧
      (xs.map some ++ rest).length = d.length + mid.length + 2 * t.length + top.length := by
  obtain ⟨pd, pt, w, gap, rfl, hI, hexit⟩ := hs
  obtain ⟨qt, rfl⟩ := hI.stage
  have hgap := hI.gap
  have hlen := hI.length
  rw [List.length_append] at hlen ⊢
  have hsorted : (pd ++ pt ++ w).Pairwise (· < ·) := by
    refine List.pairwise_append.mpr ⟨?_, hI.sorted, ?_⟩
    · rcases hexit with rfl | rfl
      · exact (List.pairwise_append.mp ht).1
      · rw [List.append_nil]
        exact hd.sublist hI.dest.sublist
    · exact fun y hy x hx => hI.above x hx y (List.mem_append.mp hy)
  have hzero : pt = [] → gap = [] := by
    rintro rfl
    exact List.length_eq_zero_iff.mp hgap
  refine ⟨pd ++ pt ++ w, mid ++ (pt ++ qt).map some ++ top, ?_, ?_, hsorted, ?_, by simp; omega,
    by simp; omega⟩
  · rcases hexit with rfl | rfl
    · have hsrc : (d.length + (pt.length + qt.length : Nat) + mid.length : Int) =
          gap.length + (w.map some ++ mid).length := by
        simp at hlen ⊢
        omega
      have hn : (pt.length : Int) = (pt.map some).length := by simp
      have hcopy := memcpy_front (w.map some ++ mid) (pt.map some) (qt.map some ++ top) (a := gap)
        (by simpa using hgap) hsrc hn
      simpa [slideState] using hcopy
    · obtain rfl := hzero rfl
      refine (memcpy_zero (by omega) ?_).trans ?_
      · simp [slideState] at hlen ⊢
        omega
      · simp [slideState]
  · intro hdelta
    have hpt : pt = [] := List.length_eq_zero_iff.mp (by simpa [slideState] using hdelta)
    subst hpt
    obtain rfl := hzero rfl
    simp [slideState]
  · intro x
    rw [← hI.mem x]
    simp only [List.mem_append]
    tauto

/-- Where the loop starts. -/
theorem sliding_start (d t : List Int) {gap : Cells} (hgap : gap.length = t.length) :
    Sliding d t d t [] gap :=
  ⟨List.prefix_refl d, List.prefix_refl t, List.Pairwise.nil, by simp, by simp, hgap, by simp⟩

end Librecompat.NodeSet
