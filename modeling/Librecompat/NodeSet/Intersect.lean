/-
  `re_node_set_add_intersect`.

  The first loop goes down both sources and stages the elements they share that are not in
  `dest` (`Meeting`: the elements `q₁` and `q₂` are done, of `dest` the elements `qd` are passed;
  all of these are above what is left of `src1`). `addIntersect_spec` puts it together with the
  in-place merge.
-/
import Librecompat.NodeSet.Merge

namespace Librecompat.NodeSet

open Librecompat.Lib
open Librecompat.Regex (RegErrcode REG_NOERROR REG_ESPACE)

variable {xs₁ xs₂ d : List Int}

/-! ## The elements that are shared -/

/-- The elements of `q` that are in `xs` and not in `d`. -/
def shared (d xs q : List Int) : List Int := q.filter fun x => x ∈ xs ∧ x ∉ d

theorem mem_shared {xs q : List Int} {x : Int} : x ∈ shared d xs q ↔ x ∈ q ∧ x ∈ xs ∧ x ∉ d := by
  simp [shared]

theorem shared_cons_of_pos {xs : List Int} {x : Int} (q : List Int) (h : x ∈ xs) (hd : x ∉ d) :
    shared d xs (x :: q) = x :: shared d xs q := by
  simp [shared, h, hd]

theorem shared_cons_of_neg {xs : List Int} {x : Int} (q : List Int) (h : x ∉ xs ∨ x ∈ d) :
    shared d xs (x :: q) = shared d xs q := by
  have hneg : ¬ (x ∈ xs ∧ x ∉ d) := by tauto
  simp [shared, hneg]

/-! ## The search in dest -/

/-- The inner loop passes the elements of `dest` above `x`. -/
theorem lowerId_spec (pd qd : List Int) (x : Int) (t : List Int) (mid top : Cells) :
    ∃ pd' r, pd = pd' ++ r ∧
      lowerId (staged (pd ++ qd) t mid top) x (pd.length - 1) = some ((pd'.length : Int) - 1) ∧
      (∀ y ∈ r, x < y) ∧ ∀ p y, pd' = p ++ [y] → y ≤ x := by
  let I (id : Int) : Prop := ∃ pd' r, pd = pd' ++ r ∧ id = pd'.length - 1 ∧ ∀ y ∈ r, x < y
  let Q (id : Int) : Prop := ∃ pd' r, pd = pd' ++ r ∧ id = pd'.length - 1 ∧ (∀ y ∈ r, x < y) ∧
    ∀ p y, pd' = p ++ [y] → y ≤ x
  have hpass : ∀ id, I id →
      (∃ id', lowerPass (staged (pd ++ qd) t mid top) x id = some (.inl id') ∧ I id' ∧
        (id' + 1).toNat < (id + 1).toNat) ∨
      ∃ r, lowerPass (staged (pd ++ qd) t mid top) x id = some (.inr r) ∧ Q r := by
    rintro id ⟨pd', r, hsplit, rfl, hr⟩
    rcases List.eq_nil_or_concat' pd' with rfl | ⟨p, y, rfl⟩
    · exact .inr ⟨_, if_neg (by simp), [], r, hsplit, rfl, hr, by simp⟩
    · have hread : readCell (staged (pd ++ qd) t mid top) ((p ++ [y]).length - 1) = some y := by
        have hcell := readCell_staged p (r ++ qd) y t mid top (i := (p ++ [y]).length - 1)
          (by simp)
        simpa [hsplit] using hcell
      unfold lowerPass
      simp only [hread, Option.bind_eq_bind, Option.bind_some]
      rw [if_pos (by simp)]
      by_cases hgt : y > x
      · refine .inl ⟨p.length - 1, by simp [hgt], ⟨p, y :: r, by simp [hsplit], rfl, ?_⟩, by simp⟩
        exact List.forall_mem_cons.mpr ⟨hgt, hr⟩
      · refine .inr ⟨_, by rw [if_neg hgt], p ++ [y], r, hsplit, rfl, hr, ?_⟩
        intro p' y' heq
        obtain ⟨rfl, h⟩ := List.append_inj' heq rfl
        obtain rfl := List.singleton_inj.mp h
        omega
  obtain ⟨id, hid, pd', r, hsplit, rfl, hr, hlast⟩ := tryLoop_total _ hpass
    ⟨pd, [], by simp, rfl, by simp⟩ (n := ((pd.length : Int) - 1 + 1).toNat + 1) (by simp)
  exact ⟨pd', r, hsplit, hid, hr, hlast⟩

/-- What the search leaves tells whether the element is in `dest`. -/
theorem isAbsent_spec (hd : d.Pairwise (· < ·)) {pd r : List Int} {x : Int} (hdest : d = pd ++ r)
    (hr : ∀ y ∈ r, x < y) (hlast : ∀ p y, pd = p ++ [y] → y ≤ x) (t : List Int) (mid top : Cells) :
    ∃ b, isAbsent (staged d t mid top) x (pd.length - 1) = some b ∧ (b = true ↔ x ∉ d) := by
  have hnot : x ∉ r := fun hmem => lt_irrefl x (hr x hmem)
  rcases List.eq_nil_or_concat' pd with rfl | ⟨p, y, rfl⟩
  · refine ⟨true, if_pos (by simp), iff_of_true rfl ?_⟩
    rwa [hdest, List.nil_append]
  · have hread : readCell (staged d t mid top) ((p ++ [y]).length - 1) = some y := by
      have hcell := readCell_staged p r y t mid top (i := (p ++ [y]).length - 1) (by simp)
      simpa [hdest] using hcell
    refine ⟨y ≠ x, by rw [isAbsent, if_neg (by simp), hread, Option.map_some], ?_⟩
    have hy := sorted_last (hdest ▸ hd)
    have hle := hlast p y rfl
    rw [decide_eq_true_eq]
    constructor
    · intro hne
      rw [hdest]
      exact not_mem_between hy (lt_of_le_of_ne hle hne) hr
    · rintro hx rfl
      exact hx (by simp [hdest])

/-! ## The first loop -/

structure Meeting (xs₁ xs₂ d p₁ q₁ p₂ q₂ pd qd : List Int) (mid : Cells) : Prop where
  source₁ : xs₁ = p₁ ++ q₁
  source₂ : xs₂ = p₂ ++ q₂
  dest : d = pd ++ qd
  below₂ : ∀ x ∈ p₁, ∀ y ∈ q₂, x < y
  below : ∀ x ∈ p₁, ∀ y ∈ qd, x < y
  room : mid.length + (shared d xs₂ q₁).length = xs₁.length + xs₂.length
  fits : (shared d xs₂ q₁).length ≤ q₂.length

/-- The state of the loop as the invariant has it. -/
def meetState (xs₂ d p₁ q₁ p₂ pd : List Int) (mid top : Cells) : Intersect :=
  ⟨staged d (shared d xs₂ q₁) mid top, p₁.length - 1, p₂.length - 1, pd.length - 1,
    d.length + mid.length⟩

/-- How a pass ends: with the next state, or with the loop when one source is exhausted. -/
def Met (xs₁ xs₂ d : List Int) (top : Cells) (s : Intersect) : Prop :=
  ∃ mid, s.elems = staged d (shared d xs₂ xs₁) mid top ∧ s.sbase = d.length + mid.length ∧
    mid.length + (shared d xs₂ xs₁).length = xs₁.length + xs₂.length ∧
    (shared d xs₂ xs₁).length ≤ xs₂.length

/-- When one source is exhausted, nothing that is left is shared. -/
theorem Meeting.met {p₁ q₁ p₂ q₂ pd qd : List Int} {mid : Cells}
    (hI : Meeting xs₁ xs₂ d p₁ q₁ p₂ q₂ pd qd mid) (hexit : p₁ = [] ∨ p₂ = []) {top : Cells}
    {s : Intersect} (helems : s.elems = staged d (shared d xs₂ q₁) mid top)
    (hsbase : s.sbase = d.length + mid.length) : Met xs₁ xs₂ d top s := by
  have hall : shared d xs₂ xs₁ = shared d xs₂ q₁ := by
    have hnone : shared d xs₂ p₁ = [] := by
      rw [shared, List.filter_eq_nil_iff]
      rintro x hx hx₂
      rcases hexit with rfl | rfl
      · exact List.not_mem_nil hx
      · have hq : x ∈ q₂ := by
          have := (decide_eq_true_eq.mp hx₂).1
          rwa [hI.source₂] at this
        exact lt_irrefl x (hI.below₂ x hx x hq)
    have happ : shared d xs₂ (p₁ ++ q₁) = shared d xs₂ p₁ ++ shared d xs₂ q₁ :=
      List.filter_append _ _
    rw [hI.source₁, happ, hnone, List.nil_append]
  refine ⟨mid, by rw [hall, helems], hsbase, by rw [hall, hI.room], ?_⟩
  have hfits := hI.fits
  have hlen := congrArg List.length hI.source₂
  rw [List.length_append] at hlen
  rw [hall]
  omega

/-- An element of `src2` above the next one of `src1` is passed. -/
theorem Meeting.pass₂ {p₁ q₁ p₂ q₂ pd qd : List Int} {mid : Cells} {x y : Int}
    (hI : Meeting xs₁ xs₂ d (p₁ ++ [x]) q₁ (p₂ ++ [y]) q₂ pd qd mid)
    (hs₁ : xs₁.Pairwise (· < ·)) (hlt : x < y) :
    Meeting xs₁ xs₂ d (p₁ ++ [x]) q₁ p₂ (y :: q₂) pd qd mid := by
  refine ⟨hI.source₁, by simp [hI.source₂], hI.dest, ?_, hI.below, hI.room, ?_⟩
  · have hlast := lt_of_last (sorted_last (hI.source₁ ▸ hs₁)) hlt
    exact fun u hu => List.forall_mem_cons.mpr ⟨hlast u hu, hI.below₂ u hu⟩
  · have := hI.fits
    rw [List.length_cons]
    omega

/-- An element of `src1` above the next one of `src2` is passed: it is not shared. -/
theorem Meeting.pass₁ {p₁ q₁ p₂ q₂ pd qd : List Int} {mid : Cells} {x y : Int}
    (hI : Meeting xs₁ xs₂ d (p₁ ++ [x]) q₁ (p₂ ++ [y]) q₂ pd qd mid)
    (hs₂ : xs₂.Pairwise (· < ·)) (hgt : y < x) :
    shared d xs₂ (x :: q₁) = shared d xs₂ q₁ ∧
      Meeting xs₁ xs₂ d p₁ (x :: q₁) (p₂ ++ [y]) q₂ pd qd mid := by
  have hx : x ∉ xs₂ := by
    have hbetween := not_mem_between (sorted_last (hI.source₂ ▸ hs₂)) hgt (hI.below₂ x (by simp))
    rwa [← hI.source₂] at hbetween
  have hshared := shared_cons_of_neg (d := d) q₁ (.inl hx)
  refine ⟨hshared, by simp [hI.source₁], hI.source₂, hI.dest,
    fun u hu => hI.below₂ u (by simp [hu]), fun u hu => hI.below u (by simp [hu]), ?_, ?_⟩
  · rw [hshared, hI.room]
  · rw [hshared]
    exact hI.fits

/-- An element of both sources is passed in both, whether it is staged or not. -/
theorem Meeting.pass {p₁ q₁ p₂ q₂ pd r qd : List Int} {mid mid' : Cells} {x : Int}
    (hI : Meeting xs₁ xs₂ d (p₁ ++ [x]) q₁ (p₂ ++ [x]) q₂ (pd ++ r) qd mid)
    (hs₁ : xs₁.Pairwise (· < ·)) (hr : ∀ y ∈ r, x < y)
    (hroom : mid'.length + (shared d xs₂ (x :: q₁)).length = xs₁.length + xs₂.length)
    (hfits : (shared d xs₂ (x :: q₁)).length ≤ (shared d xs₂ q₁).length + 1) :
    Meeting xs₁ xs₂ d p₁ (x :: q₁) p₂ (x :: q₂) pd (r ++ qd) mid' := by
  have hpx := sorted_last (hI.source₁ ▸ hs₁)
  have hqd : ∀ y ∈ r ++ qd, x < y := List.forall_mem_append.mpr ⟨hr, hI.below x (by simp)⟩
  refine ⟨by simp [hI.source₁], by simp [hI.source₂], by simp [hI.dest], ?_, ?_, hroom, ?_⟩
  · exact fun u hu => List.forall_mem_cons.mpr ⟨hpx u hu, hI.below₂ u (by simp [hu])⟩
  · exact fun u hu y hy => (hpx u hu).trans (hqd y hy)
  · have := hI.fits
    rw [List.length_cons]
    omega

/-- Of two equal elements, what the search in `dest` leaves tells whether they are in it. -/
theorem Meeting.stage {p₁ q₁ p₂ q₂ pd qd : List Int} {mid : Cells} {x : Int}
    (hI : Meeting xs₁ xs₂ d (p₁ ++ [x]) q₁ (p₂ ++ [x]) q₂ pd qd mid)
    (hs₁ : xs₁.Pairwise (· < ·)) (hd : d.Pairwise (· < ·)) (top : Cells) :
    ∃ pd' qd' mid', Meeting xs₁ xs₂ d p₁ (x :: q₁) p₂ (x :: q₂) pd' qd' mid' ∧
      ((lowerId (staged d (shared d xs₂ q₁) mid top) x (pd.length - 1)).bind fun id =>
        stageAbsent { meetState xs₂ d (p₁ ++ [x]) q₁ (p₂ ++ [x]) pd mid top with id := id } x) =
        some { meetState xs₂ d p₁ (x :: q₁) p₂ pd' mid' top with
          i1 := (p₁ ++ [x]).length - 1, i2 := (p₂ ++ [x]).length - 1 } := by
  obtain ⟨pd', r, rfl, hlower, hr, hlast⟩ := lowerId_spec pd qd x
    (shared d xs₂ q₁) mid top
  have hx₂ : x ∈ xs₂ := by simp [hI.source₂]
  have hdest : d = pd' ++ (r ++ qd) := by simp [hI.dest]
  have hqd : ∀ y ∈ r ++ qd, x < y := List.forall_mem_append.mpr ⟨hr, hI.below x (by simp)⟩
  obtain ⟨b, hb, hiff⟩ := isAbsent_spec hd hdest hqd hlast (shared d xs₂ q₁) mid top
  have hstate : lowerId (staged d (shared d xs₂ q₁) mid top) x ((pd' ++ r).length - 1) =
      some ((pd'.length : Int) - 1) := by
    rw [hI.dest]
    exact hI.dest ▸ hlower
  rw [hstate, Option.bind_some, stageAbsent]
  simp only [meetState, hb, Option.bind_some]
  have hroom := hI.room
  cases b with
  | false =>
    have hx : x ∈ d := by simpa using hiff
    have hshared := shared_cons_of_neg q₁ (.inr hx : x ∉ xs₂ ∨ x ∈ d)
    refine ⟨pd', r ++ qd, mid, hI.pass hs₁ hr ?_ ?_, ?_⟩
    · rwa [hshared]
    · rw [hshared]
      exact Nat.le_succ _
    · rw [hshared]
      rfl
  | true =>
    have hx : x ∉ d := by simpa using hiff
    have hshared := shared_cons_of_pos q₁ hx₂ hx
    have hmid : mid ≠ [] := by
      have hle : (shared d xs₂ q₁).length ≤ q₁.length := List.length_filter_le _ _
      have hlen := congrArg List.length hI.source₁
      simp only [List.length_append, List.length_singleton] at hlen
      rintro rfl
      rw [List.length_nil] at hroom
      omega
    obtain ⟨mid, c, rfl⟩ := (List.eq_nil_or_concat' mid).resolve_left hmid
    rw [List.length_append, List.length_singleton] at hroom
    refine ⟨pd', r ++ qd, mid, hI.pass hs₁ hr ?_ ?_, ?_⟩
    · rw [hshared, List.length_cons]
      omega
    · rw [hshared, List.length_cons]
    · have hset := setAt_staged d (shared d xs₂ q₁) mid top c x
        (i := d.length + ((mid ++ [c]).length : Nat) - 1) (by simp; omega)
      rw [if_pos rfl, hset]
      simp [hshared]
      omega

theorem index_pred (p : List Int) (x : Int) :
    ((p ++ [x]).length : Int) - 1 - 1 = p.length - 1 := by
  simp

theorem index_neg (p : List Int) : (p.length : Int) - 1 < 0 ↔ p = [] := by
  rw [← List.length_eq_zero_iff]
  omega

theorem intersectPass_spec {src₁ src₂ : ReNodeSet} (h₁ : Holds src₁ xs₁) (h₂ : Holds src₂ xs₂)
    (hd : d.Pairwise (· < ·)) {p₁ q₁ p₂ q₂ pd qd : List Int} {mid : Cells} (top : Cells)
    (hI : Meeting xs₁ xs₂ d p₁ q₁ p₂ q₂ pd qd mid) (hp₁ : p₁ ≠ []) (hp₂ : p₂ ≠ []) :
    (∃ p₁' q₁' p₂' q₂' pd' qd' mid',
      intersectPass src₁ src₂ (meetState xs₂ d p₁ q₁ p₂ pd mid top) =
        some (.inl (meetState xs₂ d p₁' q₁' p₂' pd' mid' top)) ∧
      Meeting xs₁ xs₂ d p₁' q₁' p₂' q₂' pd' qd' mid' ∧ p₁' ≠ [] ∧ p₂' ≠ [] ∧
      p₁'.length + p₂'.length < p₁.length + p₂.length) ∨
    ∃ s, intersectPass src₁ src₂ (meetState xs₂ d p₁ q₁ p₂ pd mid top) = some (.inr s) ∧
      Met xs₁ xs₂ d top s := by
  obtain ⟨p₁, x, rfl⟩ := (List.eq_nil_or_concat' p₁).resolve_left hp₁
  obtain ⟨p₂, y, rfl⟩ := (List.eq_nil_or_concat' p₂).resolve_left hp₂
  have hs₁ := h₁.sorted
  have hs₂ := h₂.sorted
  have hsource₁ : xs₁ = p₁ ++ x :: q₁ := by simp [hI.source₁]
  have hsource₂ : xs₂ = p₂ ++ y :: q₂ := by simp [hI.source₂]
  have hread₁ : readCell src₁.elems ((p₁ ++ [x]).length - 1) = some x :=
    (hsource₁ ▸ h₁).read (by simp)
  have hread₂ : readCell src₂.elems ((p₂ ++ [y]).length - 1) = some y :=
    (hsource₂ ▸ h₂).read (by simp)
  unfold intersectPass
  simp only [meetState, hread₁, hread₂, Option.bind_eq_bind, Option.bind_some, index_pred,
    index_neg]
  rcases lt_trichotomy x y with hlt | heq | hgt
  · rw [if_neg hlt.ne, if_pos hlt]
    have hI' := hI.pass₂ hs₁ hlt
    by_cases hp : p₂ = []
    · rw [if_pos hp]
      exact .inr ⟨_, rfl, hI'.met (.inr hp) rfl rfl⟩
    · rw [if_neg hp]
      exact .inl ⟨p₁ ++ [x], q₁, p₂, y :: q₂, pd, qd, mid, rfl, hI', hp₁, hp, by simp⟩
  · subst heq
    obtain ⟨pd', qd', mid', hI', hstage⟩ := hI.stage hs₁ hd top
    rw [if_pos rfl, ← Option.bind_assoc]
    simp only [meetState] at hstage
    rw [hstage, Option.bind_some]
    simp only [index_pred, index_neg]
    by_cases hp : p₁ = []
    · rw [if_pos hp]
      exact .inr ⟨_, rfl, hI'.met (.inl hp) rfl rfl⟩
    · rw [if_neg hp]
      by_cases hp' : p₂ = []
      · rw [if_pos hp']
        exact .inr ⟨_, rfl, hI'.met (.inr hp') rfl rfl⟩
      · rw [if_neg hp']
        exact .inl ⟨p₁, x :: q₁, p₂, x :: q₂, pd', qd', mid', rfl, hI', hp, hp', by simp; omega⟩
  · rw [if_neg hgt.ne', if_neg (not_lt_of_gt hgt)]
    obtain ⟨hshared, hI'⟩ := hI.pass₁ hs₂ hgt
    by_cases hp : p₁ = []
    · rw [if_pos hp]
      exact .inr ⟨_, rfl, hI'.met (.inl hp) (by rw [hshared]) rfl⟩
    · rw [if_neg hp]
      exact .inl ⟨p₁, x :: q₁, p₂ ++ [y], q₂, pd, qd, mid, by rw [hshared], hI', hp, hp₂,
        by simp⟩

/-- The first loop: what both sources share and `dest` lacks is staged. -/
theorem intersect_spec {src₁ src₂ : ReNodeSet} (h₁ : Holds src₁ xs₁) (h₂ : Holds src₂ xs₂)
    (hd : d.Pairwise (· < ·)) (hne₁ : xs₁ ≠ []) (hne₂ : xs₂ ≠ []) {mid : Cells} (top : Cells)
    (hmid : mid.length = xs₁.length + xs₂.length) :
    ∃ s, tryLoop (intersectPass src₁ src₂) (xs₁.length + xs₂.length + 1)
        ⟨staged d [] mid top, xs₁.length - 1, xs₂.length - 1, d.length - 1,
          d.length + mid.length⟩ = some s ∧ Met xs₁ xs₂ d top s := by
  let I (s : Intersect) : Prop := ∃ p₁ q₁ p₂ q₂ pd qd mid,
    s = meetState xs₂ d p₁ q₁ p₂ pd mid top ∧ Meeting xs₁ xs₂ d p₁ q₁ p₂ q₂ pd qd mid ∧
    p₁ ≠ [] ∧ p₂ ≠ []
  have hstart : Meeting xs₁ xs₂ d xs₁ [] xs₂ [] d [] mid :=
    ⟨by simp, by simp, by simp, by simp, by simp, by simpa [shared], by simp [shared]⟩
  refine tryLoop_total (I := I) (fun s => (s.i1 + 1).toNat + (s.i2 + 1).toNat) ?_
    ⟨xs₁, [], xs₂, [], d, [], mid, rfl, hstart, hne₁, hne₂⟩ (by simp)
  rintro s ⟨p₁, q₁, p₂, q₂, pd, qd, mid, rfl, hI, hp₁, hp₂⟩
  obtain ⟨p₁', q₁', p₂', q₂', pd', qd', mid', hb, hI', hp₁', hp₂', hlt⟩ | ⟨s, hb, hmet⟩ :=
    intersectPass_spec h₁ h₂ hd top hI hp₁ hp₂
  · refine .inl ⟨_, hb, ⟨p₁', q₁', p₂', q₂', pd', qd', mid', rfl, hI', hp₁', hp₂'⟩, ?_⟩
    simp only [meetState]
    omega
  · exact .inr ⟨s, hb, hmet⟩

/-! ## The function -/

/-- What follows the allocation. -/
theorem intersectInto_spec {dest src₁ src₂ : ReNodeSet} (h : Holds dest d) (h₁ : Holds src₁ xs₁)
    (h₂ : Holds src₂ xs₂) (hne₁ : xs₁ ≠ []) (hne₂ : xs₂ ≠ [])
    (hroom : src₁.nelem + src₂.nelem + dest.nelem ≤ dest.alloc) :
    ∃ set ys, addIntersect dest src₁ src₂ = some set ∧ Holds set ys ∧
      ∀ x, x ∈ ys ↔ x ∈ d ∨ x ∈ xs₁ ∧ x ∈ xs₂ := by
  have hn₁ := h₁.nelem
  have hn₂ := h₂.nelem
  have hnd := h.nelem
  obtain ⟨mid, top, helems, hmid, halloc⟩ :=
    h.exists_staged (n := xs₁.length + xs₂.length) (by push_cast; omega)
  obtain ⟨s, hloop, mid', hel, hsbase, hlen, hfits⟩ := intersect_spec h₁ h₂ h.sorted hne₁ hne₂ top
    hmid
  have hle : (shared d xs₂ xs₁).length ≤ xs₁.length := List.length_filter_le _ _
  have hsorted : (shared d xs₂ xs₁).Pairwise (· < ·) := h₁.sorted.sublist List.filter_sublist
  have hfuel : src₁.nelem.toNat + src₂.nelem.toNat + 1 = xs₁.length + xs₂.length + 1 := by omega
  have hinit : (⟨dest.elems, src₁.nelem - 1, src₂.nelem - 1, dest.nelem - 1,
      dest.nelem + src₁.nelem + src₂.nelem⟩ : Intersect) =
      ⟨staged d [] mid top, xs₁.length - 1, xs₂.length - 1, d.length - 1,
        d.length + mid.length⟩ := by
    rw [helems, hn₁, hn₂, hnd, hmid, add_assoc]
    push_cast
    rfl
  have hdelta : dest.nelem + src₁.nelem + src₂.nelem - 1 - s.sbase + 1 =
      (shared d xs₂ xs₁).length := by omega
  have hgo : dest.nelem + src₁.nelem + src₂.nelem - 1 = d.length + mid'.length +
      (shared d xs₂ xs₁).length - 1 := by omega
  obtain ⟨t, elems, ys, hslide, hcopy, _, hholds, hys⟩ := inPlace_spec mid' top dest.alloc
    h.sorted hsorted (fun x hx => (mem_shared.mp hx).2.2) (by omega)
    (by push_cast at halloc; omega) rfl
  unfold addIntersect
  simp only [hfuel, hinit, hloop, Option.bind_eq_bind, Option.bind_some, hdelta]
  rw [hgo, hel, hnd]
  simp only [hslide, Option.bind_some, hsbase, hcopy]
  refine ⟨_, ys, rfl, hholds, ?_⟩
  intro x
  rw [hys x, mem_shared]
  tauto

/-- `re_node_set_add_intersect`. -/
theorem addIntersect_spec {dest src₁ src₂ : ReNodeSet} (h : Holds dest d) (h₁ : Holds src₁ xs₁)
    (h₂ : Holds src₂ xs₂) :
    ∃ set ys, reNodeSetAddIntersect true dest src₁ src₂ = some (set, REG_NOERROR) ∧ Holds set ys ∧
      ∀ x, x ∈ ys ↔ x ∈ d ∨ x ∈ xs₁ ∧ x ∈ xs₂ := by
  unfold reNodeSetAddIntersect
  have hn₁ := h₁.nelem
  have hn₂ := h₂.nelem
  have hempty : ∀ {xs : List Int} {src : ReNodeSet}, Holds src xs → (src.nelem = 0 ↔ xs = []) := by
    intro xs src hs
    rw [hs.nelem, ← List.length_eq_zero_iff]
    omega
  by_cases hnone : src₁.nelem = 0 ∨ src₂.nelem = 0
  · refine ⟨dest, d, if_pos hnone, h, fun x => ?_⟩
    rw [hempty h₁, hempty h₂] at hnone
    rcases hnone with rfl | rfl <;> simp
  · obtain ⟨hz₁, hz₂⟩ := not_or.mp hnone
    have hle := h.nelem_le
    have hnd := h.nelem
    obtain ⟨dest', hgrow, h', halloc⟩ := grow_spec h
      (src₁.nelem + src₂.nelem + dest.nelem > dest.alloc) (src₁.nelem + src₂.nelem + dest.alloc)
      (src₁.nelem + src₂.nelem + dest.nelem) (by omega) (by simp; omega) (by simp)
    have hnd' := h'.nelem
    obtain ⟨set, ys, hset, hholds, hmem⟩ := intersectInto_spec h' h₁ h₂
      (fun hnil => hz₁ ((hempty h₁).mpr hnil)) (fun hnil => hz₂ ((hempty h₂).mpr hnil)) (by omega)
    exact ⟨set, ys, by simp only [if_neg hnone, hgrow, hset, Option.map_some], hholds, hmem⟩

end Librecompat.NodeSet
