/-
  The elements of a node set, and what the functions on single elements do to them.

  `Holds set xs` says that the cells of `set` start with the strictly increasing list `xs`, that
  `nelem` is its length and `alloc` the size of the block. Each function comes with the lemma
  that it stays inside the block and with the list that the result holds; `contains_spec` is the
  binary search.
-/
import Librecompat.NodeSet.Model

namespace Librecompat.NodeSet

open Librecompat.Lib
open Librecompat.Regex (RegErrcode REG_NOERROR REG_ESPACE)

/-! ## Sorted blocks -/

/-- The elements of the set are `xs`. -/
structure Holds (set : ReNodeSet) (xs : List Int) : Prop where
  sorted : xs.Pairwise (· < ·)
  nelem : set.nelem = xs.length
  alloc : set.alloc = set.elems.length
  cells : ∃ top, set.elems = xs.map some ++ top

theorem Holds.nelem_le {set : ReNodeSet} {xs : List Int} (h : Holds set xs) :
    set.nelem ≤ set.alloc := by
  obtain ⟨top, htop⟩ := h.cells
  rw [h.nelem, h.alloc, htop, List.length_append, List.length_map]
  omega

/-- The size of the block behind the elements. -/
theorem Holds.exists_top {set : ReNodeSet} {xs : List Int} (h : Holds set xs) :
    ∃ top, set.elems = xs.map some ++ top ∧ set.alloc = xs.length + top.length := by
  obtain ⟨top, htop⟩ := h.cells
  refine ⟨top, htop, ?_⟩
  rw [h.alloc, htop, List.length_append, List.length_map, Int.natCast_add]

theorem holds_initEmpty : Holds reNodeSetInitEmpty [] := ⟨List.Pairwise.nil, rfl, rfl, [], rfl⟩

theorem readCell_append_cons (a b : Cells) (x : Int) {i : Int} (h : i = a.length) :
    readCell (a ++ some x :: b) i = some x := by
  rw [readCell, getAt_append_cons a b _ h, Option.join_some]

/-- Reading the element behind `p`. -/
theorem readCell_map (p q : List Int) (x : Int) (top : Cells) {i : Int} (h : i = p.length) :
    readCell ((p ++ x :: q).map some ++ top) i = some x := by
  have hcell := readCell_append_cons (p.map some) (q.map some ++ top) x (i := i) (by simpa using h)
  simpa using hcell

/-- Reading the element of a set behind `p`. -/
theorem Holds.read {set : ReNodeSet} {p q : List Int} {x : Int} (h : Holds set (p ++ x :: q))
    {i : Int} (hi : i = p.length) : readCell set.elems i = some x := by
  obtain ⟨top, htop⟩ := h.cells
  rw [htop]
  exact readCell_map p q x top hi

theorem Holds.readAt {set : ReNodeSet} {xs : List Int} (h : Holds set xs) {k : Nat}
    (hk : k < xs.length) : readCell set.elems k = some xs[k] := by
  have hxs : Holds set (xs.take k ++ xs[k] :: xs.drop (k + 1)) := by simpa using h
  exact hxs.read (by rw [List.length_take]; omega)

/-- Reading the elements of a set between `q` and `r`. -/
theorem Holds.readRange {set : ReNodeSet} {q p r : List Int} (h : Holds set (q ++ p ++ r))
    {i n : Int} (hi : i = q.length) (hn : n = p.length) :
    getRange set.elems i n = some (p.map some) := by
  obtain ⟨top, htop⟩ := h.cells
  rw [htop]
  have hget := getRange_append (q.map some) (p.map some) (r.map some ++ top) (i := i) (n := n)
    (by simpa using hi) (by simpa using hn)
  simpa using hget

/-- Reading all elements of a set. -/
theorem Holds.readAll {set : ReNodeSet} {xs : List Int} (h : Holds set xs) :
    getRange set.elems 0 set.nelem = some (xs.map some) := by
  have hxs : Holds set ([] ++ xs ++ []) := by simpa using h
  exact hxs.readRange rfl h.nelem

/-- The elements in the first `nelem` cells. -/
def ReNodeSet.members (set : ReNodeSet) : List Int :=
  (set.elems.take set.nelem.toNat).filterMap id

theorem Holds.members {set : ReNodeSet} {xs : List Int} (h : Holds set xs) : set.members = xs := by
  obtain ⟨top, htop⟩ := h.cells
  have hlen : set.nelem.toNat = (xs.map some).length := by
    rw [h.nelem, List.length_map, Int.toNat_natCast]
  rw [ReNodeSet.members, htop, hlen, List.take_left]
  simp

/-- An element that is not in a sorted list has a place in it. -/
theorem exists_place {xs : List Int} (hs : xs.Pairwise (· < ·)) {e : Int} (he : e ∉ xs) :
    ∃ lo hi, xs = lo ++ hi ∧ (∀ x ∈ lo, x < e) ∧ (∀ x ∈ hi, e < x) := by
  induction xs with
  | nil => exact ⟨[], [], rfl, by simp, by simp⟩
  | cons x xs ih =>
    rw [List.pairwise_cons] at hs
    rw [List.mem_cons, not_or] at he
    by_cases hx : x < e
    · obtain ⟨lo, hi, rfl, hlo, hhi⟩ := ih hs.2 he.2
      exact ⟨x :: lo, hi, rfl, List.forall_mem_cons.mpr ⟨hx, hlo⟩, hhi⟩
    · have hlt : e < x := by omega
      refine ⟨[], x :: xs, rfl, by simp, List.forall_mem_cons.mpr ⟨hlt, ?_⟩⟩
      exact fun y hy => hlt.trans (hs.1 y hy)

theorem sorted_place {lo hi : List Int} {e : Int} (hs : (lo ++ hi).Pairwise (· < ·))
    (hlo : ∀ x ∈ lo, x < e) (hhi : ∀ x ∈ hi, e < x) : (lo ++ e :: hi).Pairwise (· < ·) := by
  rw [List.pairwise_append] at hs ⊢
  refine ⟨hs.1, List.pairwise_cons.mpr ⟨hhi, hs.2.1⟩, ?_⟩
  intro x hx
  exact List.forall_mem_cons.mpr ⟨hlo x hx, hs.2.2 x hx⟩

/-! ## Making sets -/

theorem alloc_spec {size : Int} (h : 0 ≤ size) :
    ∃ set, reNodeSetAlloc true size = (set, REG_NOERROR) ∧ Holds set [] ∧ set.alloc = size :=
  ⟨_, rfl, ⟨List.Pairwise.nil, rfl, by simp [reMalloc, h], _, rfl⟩, rfl⟩

theorem init1_spec (e : Int) :
    ∃ set, reNodeSetInit1 true e = some (set, REG_NOERROR) ∧ Holds set [e] :=
  ⟨_, rfl, List.pairwise_singleton _ e, rfl, rfl, [], rfl⟩

theorem init2_spec (set : ReNodeSet) (e₁ e₂ : Int) :
    ∃ set' xs, reNodeSetInit2 true set e₁ e₂ = some (set', REG_NOERROR) ∧ Holds set' xs ∧
      ∀ x, x ∈ xs ↔ x = e₁ ∨ x = e₂ := by
  unfold reNodeSetInit2
  rw [if_neg (by simp)]
  by_cases heq : e₁ = e₂
  · rw [if_pos heq]
    refine ⟨_, [e₁], rfl, ⟨List.pairwise_singleton _ _, rfl, rfl, [none], rfl⟩, ?_⟩
    simp [heq]
  · rw [if_neg heq]
    by_cases hlt : e₁ < e₂
    · rw [if_pos hlt]
      exact ⟨_, [e₁, e₂], rfl, ⟨by simpa using hlt, rfl, rfl, [], rfl⟩, by simp⟩
    · rw [if_neg hlt]
      have hgt : e₂ < e₁ := by omega
      exact ⟨_, [e₂, e₁], rfl, ⟨by simpa using hgt, rfl, rfl, [], rfl⟩, by simp [or_comm]⟩

theorem initCopy_spec {src : ReNodeSet} {xs : List Int} (h : Holds src xs) :
    ∃ set, reNodeSetInitCopy true src = some (set, REG_NOERROR) ∧ Holds set xs := by
  unfold reNodeSetInitCopy
  by_cases hpos : src.nelem > 0
  · have hread := h.readAll
    have hlen : (reMalloc src.nelem).length = (xs.map some).length := by
      rw [reMalloc, List.length_replicate, h.nelem, List.length_map, Int.toNat_natCast]
    have hwrite := setRange_append [] [] _ (by rfl : (0 : Int) = ([] : Cells).length) hlen
    rw [List.nil_append, List.append_nil, List.nil_append, List.append_nil] at hwrite
    refine ⟨⟨src.nelem, src.nelem, xs.map some⟩, ?_, h.sorted, h.nelem, ?_, [], by simp⟩
    · simp [hpos, hread, hwrite]
    · rw [h.nelem, List.length_map]
  · have hxs : xs = [] := by
      have := h.nelem
      exact List.length_eq_zero_iff.mp (by omega)
    subst hxs
    exact ⟨_, by simp [hpos], holds_initEmpty⟩

/-! ## Insertion -/

theorem shiftAll_spec (xs : List Int) : ∀ (c : Option Int) (rest : Cells),
    ∃ c', shiftAll xs.length (xs.map some ++ c :: rest) = some (c' :: xs.map some ++ rest) := by
  induction xs using List.reverseRecOn with
  | nil => exact fun c rest => ⟨c, rfl⟩
  | append_singleton ys y ih =>
    intro c rest
    obtain ⟨c', hc'⟩ := ih (some y) (some y :: rest)
    refine ⟨c', ?_⟩
    have hread : readCell ((ys ++ [y]).map some ++ c :: rest) ys.length = some y :=
      readCell_map ys [] y _ rfl
    have hwrite : setAt ((ys ++ [y]).map some ++ c :: rest) ((ys.length : Nat) + 1) (some y) =
        some ((ys ++ [y]).map some ++ some y :: rest) := setAt_append_cons _ _ _ _ (by simp)
    rw [List.length_append, List.length_singleton, shiftAll, hread]
    simp only [Option.bind_eq_bind, Option.bind_some, hwrite]
    simpa using hc'

/-- Everything above the new element moves up by one. -/
theorem shiftAbove_spec {e : Int} {lo : List Int} (hne : lo ≠ []) (hlo : ∀ x ∈ lo, x < e)
    (hi : List Int) (hhi : ∀ x ∈ hi, e < x) : ∀ (c : Option Int) (rest : Cells),
    ∃ c', shiftAbove e (lo ++ hi).length ((lo ++ hi).map some ++ c :: rest) =
      some ((lo.length : Int), lo.map some ++ c' :: hi.map some ++ rest) := by
  induction hi using List.reverseRecOn with
  | nil =>
    intro c rest
    obtain ⟨ys, y, rfl⟩ := (List.eq_nil_or_concat' lo).resolve_left hne
    refine ⟨c, ?_⟩
    have hread : readCell ((ys ++ [y]).map some ++ c :: rest) ys.length = some y :=
      readCell_map ys [] y _ rfl
    have hy : ¬ y > e := not_lt_of_gt (hlo y (by simp))
    rw [List.append_nil, List.length_append, List.length_singleton, shiftAbove, hread]
    simp [hy]
  | append_singleton ys y ih =>
    intro c rest
    obtain ⟨c', hc'⟩ := ih (fun x hx => hhi x (by simp [hx])) (some y) (some y :: rest)
    refine ⟨c', ?_⟩
    have hread : readCell ((lo ++ ys ++ [y]).map some ++ c :: rest) (lo ++ ys).length = some y :=
      readCell_map (lo ++ ys) [] y _ rfl
    have hwrite : setAt ((lo ++ ys ++ [y]).map some ++ c :: rest)
        (((lo ++ ys).length : Nat) + 1) (some y) =
        some ((lo ++ ys ++ [y]).map some ++ some y :: rest) :=
      setAt_append_cons _ _ _ _ (by simp; omega)
    have hy : y > e := hhi y (by simp)
    rw [← List.append_assoc, List.length_append, List.length_singleton, shiftAbove, hread]
    simp only [Option.bind_eq_bind, Option.bind_some, if_pos hy, hwrite]
    simpa using hc'

/-- The room for one more element: the first cell behind the elements. -/
theorem exists_room {set : ReNodeSet} {xs : List Int} (h : Holds set xs) (size : Int)
    (hsize : set.alloc < size) :
    ∃ c rest, (if set.alloc = set.nelem then
        { set with alloc := size, elems := reRealloc set.elems size } else set) =
      ⟨if set.alloc = set.nelem then size else set.alloc, xs.length,
        xs.map some ++ c :: rest⟩ ∧
      (if set.alloc = set.nelem then size else set.alloc) = xs.length + 1 + rest.length := by
  obtain ⟨top, htop, halloc⟩ := h.exists_top
  by_cases hfull : set.alloc = set.nelem
  · have htop0 : top = [] := by
      have := h.nelem
      exact List.length_eq_zero_iff.mp (by omega)
    subst htop0
    have hlen : set.elems.length = xs.length := by simp [htop]
    obtain ⟨k, hk⟩ := Nat.exists_eq_add_of_lt (show xs.length < size.toNat by omega)
    have hgrown : reRealloc set.elems size = xs.map some ++ none :: List.replicate k none := by
      rw [reRealloc, resizeCells_of_le (by omega), hlen, hk,
        show xs.length + k + 1 - xs.length = k + 1 by omega, List.replicate_succ, htop]
      simp
    refine ⟨none, List.replicate k none, ?_, ?_⟩
    · rw [if_pos hfull, if_pos hfull, hgrown, h.nelem]
    · rw [if_pos hfull, List.length_replicate]
      omega
  · cases top with
    | nil =>
      have := h.nelem
      exact absurd (by simpa [this] using halloc) hfull
    | cons c rest =>
      refine ⟨c, rest, ?_, ?_⟩
      · rw [if_neg hfull, if_neg hfull, ← htop, ← h.nelem]
      · rw [if_neg hfull, halloc, List.length_cons]
        omega

/-- The cells with the new element in its place are a set again. -/
theorem holds_place {lo hi : List Int} {e : Int} (hs : (lo ++ hi).Pairwise (· < ·))
    (hlo : ∀ x ∈ lo, x < e) (hhi : ∀ x ∈ hi, e < x) {alloc nelem : Int} (rest : Cells)
    (halloc : alloc = (lo ++ hi).length + 1 + rest.length)
    (hnelem : nelem = (lo ++ hi).length + 1) :
    Holds ⟨alloc, nelem, lo.map some ++ some e :: hi.map some ++ rest⟩ (lo ++ e :: hi) := by
  refine ⟨sorted_place hs hlo hhi, ?_, ?_, rest, by simp⟩
  · simp only [List.length_append, List.length_cons] at hnelem ⊢
    omega
  · simp only [List.length_append, List.length_cons, List.length_map] at halloc ⊢
    omega

/-- `re_node_set_insert` of an absent element. -/
theorem insert_spec {set : ReNodeSet} {lo hi : List Int} {e : Int} (h : Holds set (lo ++ hi))
    (hlo : ∀ x ∈ lo, x < e) (hhi : ∀ x ∈ hi, e < x) :
    ∃ set', reNodeSetInsert true set e = some (set', true) ∧ Holds set' (lo ++ e :: hi) := by
  unfold reNodeSetInsert
  by_cases hnull : set.alloc = 0
  · have hle := h.nelem_le
    have hn := h.nelem
    have hnil : lo ++ hi = [] := List.length_eq_zero_iff.mp (by omega)
    obtain ⟨rfl, rfl⟩ := List.append_eq_nil_iff.mp hnil
    obtain ⟨set', hset', hholds⟩ := init1_spec e
    exact ⟨set', by simp [hnull, hset'], hholds⟩
  · rw [if_neg hnull]
    have hpos : 0 ≤ set.alloc := by
      have := h.alloc
      omega
    by_cases hempty : set.nelem = 0
    · have hnil : lo ++ hi = [] := List.length_eq_zero_iff.mp (by have := h.nelem; omega)
      obtain ⟨top, htop, halloc⟩ := h.exists_top
      rw [hnil] at htop halloc h
      obtain ⟨rfl, rfl⟩ := List.append_eq_nil_iff.mp hnil
      cases top with
      | nil => exact absurd (by simpa using halloc) hnull
      | cons c rest =>
        refine ⟨⟨set.alloc, set.nelem + 1, some e :: rest⟩, ?_, ?_⟩
        · have hset : setAt set.elems 0 (some e) = some (some e :: rest) := by
            rw [htop]
            exact setAt_append_cons [] rest c (some e) rfl
          simp [hempty, hset]
        · have hsorted : ([] ++ [] : List Int).Pairwise (· < ·) := List.Pairwise.nil
          refine holds_place hsorted hlo hhi rest ?_ (by simp [hempty])
          simpa [add_comm] using halloc
    · rw [if_neg hempty]
      simp only [Bool.not_true, Bool.false_eq_true, and_false, if_false]
      obtain ⟨c, rest, hroom, halloc⟩ := exists_room h (set.alloc * 2) (by omega)
      rw [hroom]
      simp only [Int.toNat_natCast]
      cases lo with
      | nil =>
        cases hi with
        | nil => exact absurd (by simpa using h.nelem) hempty
        | cons y hi =>
          have hfirst : readCell ((y :: hi).map some ++ c :: rest) 0 = some y :=
            readCell_map [] hi y _ rfl
          obtain ⟨c', hshift⟩ := shiftAll_spec (y :: hi) c rest
          refine ⟨_, ?_, holds_place h.sorted hlo hhi rest halloc rfl⟩
          have hwrite : setAt (c' :: (y :: hi).map some ++ rest) 0 (some e) =
              some (some e :: (y :: hi).map some ++ rest) :=
            setAt_append_cons [] _ c' (some e) rfl
          have hlt : e < y := hhi y (by simp)
          simp only [List.nil_append, Option.bind_eq_bind, hfirst, Option.bind_some, if_pos hlt,
            hshift, hwrite, List.map_nil]
      | cons y lo =>
        have hfirst : readCell ((y :: lo ++ hi).map some ++ c :: rest) 0 = some y :=
          readCell_map [] (lo ++ hi) y _ rfl
        obtain ⟨c', hshift⟩ := shiftAbove_spec (List.cons_ne_nil y lo) hlo hi hhi c rest
        refine ⟨_, ?_, holds_place h.sorted hlo hhi rest halloc rfl⟩
        have hwrite : setAt ((y :: lo).map some ++ c' :: hi.map some ++ rest)
            ((y :: lo).length : Nat) (some e) =
            some ((y :: lo).map some ++ some e :: hi.map some ++ rest) := by
          rw [List.append_assoc, List.cons_append, List.append_assoc, List.cons_append]
          exact setAt_append_cons _ _ c' (some e) (by simp)
        have hlt : ¬ e < y := not_lt_of_gt (hlo y (by simp))
        simp only [Option.bind_eq_bind, hfirst, Option.bind_some, if_neg hlt, hshift, hwrite]

/-- `re_node_set_insert_last` of an element above the others. -/
theorem insertLast_spec {set : ReNodeSet} {xs : List Int} {e : Int} (h : Holds set xs)
    (he : ∀ x ∈ xs, x < e) :
    ∃ set', reNodeSetInsertLast true set e = some (set', true) ∧ Holds set' (xs ++ [e]) := by
  have hpos : 0 ≤ set.alloc := by
    have := h.alloc
    omega
  obtain ⟨c, rest, hroom, halloc⟩ := exists_room h ((set.alloc + 1) * 2) (by omega)
  have hwrite : setAt (xs.map some ++ c :: rest) (xs.length : Nat) (some e) =
      some (xs.map some ++ some e :: rest) := setAt_append_cons _ _ c (some e) (by simp)
  unfold reNodeSetInsertLast
  rw [if_neg (by simp), hroom]
  simp only [hwrite, Option.bind_eq_bind, Option.bind_some]
  refine ⟨_, rfl, ?_⟩
  have hsorted : (xs ++ []).Pairwise (· < ·) := by simpa using h.sorted
  have hplace := holds_place (e := e) hsorted he (by simp) rest
    (by simpa using halloc) (by simp : (xs.length : Int) + 1 = _)
  simpa using hplace

/-! ## Removal -/

/-- The elements behind `p ++ [x]` move down by one. -/
theorem removeAt_loop (q : List Int) : ∀ (p : List Int) (x : Int) (top : Cells),
    ∃ c, (List.range' p.length q.length).foldlM removePass ((p ++ x :: q).map some ++ top) =
      some ((p ++ q).map some ++ c :: top) := by
  induction q with
  | nil => exact fun p x top => ⟨some x, by simp⟩
  | cons y q ih =>
    intro p x top
    obtain ⟨c, hc⟩ := ih (p ++ [y]) y top
    refine ⟨c, ?_⟩
    have hread : readCell ((p ++ x :: y :: q).map some ++ top) ((p.length : Nat) + 1) = some y := by
      have := readCell_map (p ++ [x]) q y top (i := (p.length : Nat) + 1) (by simp)
      simpa using this
    have hwrite : setAt ((p ++ x :: y :: q).map some ++ top) (p.length : Nat) (some y) =
        some ((p ++ y :: y :: q).map some ++ top) := by
      have := setAt_append_cons (p.map some) ((y :: q).map some ++ top) (some x) (some y)
        (i := (p.length : Nat)) (by simp)
      simpa using this
    rw [List.length_cons, List.range'_succ, List.foldlM_cons]
    simp only [removePass, hread, hwrite, Option.bind_eq_bind, Option.bind_some]
    simpa using hc

/-- `re_node_set_remove_at`: an index outside the set changes nothing. -/
theorem removeAt_spec {set : ReNodeSet} {xs : List Int} (h : Holds set xs) (idx : Int) :
    ∃ set', reNodeSetRemoveAt set idx = some set' ∧
      Holds set' (if idx < 0 then xs else xs.eraseIdx idx.toNat) := by
  unfold reNodeSetRemoveAt
  have hn := h.nelem
  by_cases hout : idx < 0 ∨ idx ≥ set.nelem
  · rw [if_pos hout]
    refine ⟨set, rfl, ?_⟩
    split
    · exact h
    · rwa [List.eraseIdx_of_length_le (by omega)]
  · rw [if_neg hout]
    obtain ⟨hge, hlt⟩ : 0 ≤ idx ∧ idx < xs.length := by omega
    obtain ⟨k, rfl⟩ := Int.eq_ofNat_of_zero_le hge
    obtain ⟨top, htop, halloc⟩ := h.exists_top
    rw [if_neg (by omega), Int.toNat_natCast]
    have hk : k < xs.length := by omega
    -- the elements in front of the index and the ones behind it
    have hsplit : xs = xs.take k ++ xs[k] :: xs.drop (k + 1) := by simp
    have hsub : (xs.eraseIdx k).Pairwise (· < ·) := h.sorted.sublist (List.eraseIdx_sublist xs k)
    rw [List.eraseIdx_eq_take_drop_succ] at hsub ⊢
    obtain ⟨c, hc⟩ := removeAt_loop (xs.drop (k + 1)) (xs.take k) xs[k] top
    rw [← hsplit, ← htop, List.length_take_of_le hk.le, List.length_drop] at hc
    have hcount : (set.nelem - 1 - (k : Int)).toNat = xs.length - (k + 1) := by omega
    refine ⟨⟨set.alloc, set.nelem - 1, _⟩, ?_, hsub, ?_, ?_, c :: top, rfl⟩
    · simp only [hcount, hc, Option.bind_eq_bind, Option.bind_some]
    · simp only [List.length_append, List.length_take, List.length_drop]
      omega
    · simp only [List.length_append, List.length_map, List.length_take, List.length_drop,
        List.length_cons]
      omega

/-! ## Search -/

/-- What a pass of the binary search keeps: the element is not outside `idx .. right`. -/
structure Searching (xs : List Int) (e : Int) (s : Nat × Nat) : Prop where
  le : s.1 ≤ s.2
  lt : s.2 < xs.length
  inside : ∀ k, xs[k]? = some e → s.1 ≤ k ∧ k ≤ s.2

theorem searchPass_spec {xs : List Int} (hs : xs.Pairwise (· < ·)) (e : Int) (top : Cells)
    {s : Nat × Nat} (h : Searching xs e s) :
    (∃ s', searchPass (xs.map some ++ top) e s = some (.inl s') ∧ Searching xs e s' ∧
      s'.2 - s'.1 < s.2 - s.1) ∨
    ∃ i, searchPass (xs.map some ++ top) e s = some (.inr i) ∧ Searching xs e (i, i) := by
  obtain ⟨i, j⟩ := s
  obtain ⟨hle, hlt, hin⟩ := h
  simp only at hle hlt hin
  unfold searchPass
  by_cases hij : i < j
  · left
    have hmid : (i + j) / 2 < xs.length := by omega
    have hread : readCell (xs.map some ++ top) (((i + j) / 2 : Nat) : Int) =
        some xs[(i + j) / 2] := by
      rw [readCell, getAt_natCast, List.getElem?_append_left (by simpa using hmid)]
      simp [hmid]
    simp only [hij, if_true, hread, Option.bind_eq_bind, Option.bind_some]
    have hmono := List.pairwise_iff_getElem.mp hs
    by_cases hx : xs[(i + j) / 2] < e
    · refine ⟨((i + j) / 2 + 1, j), by rw [if_pos hx], ⟨by simp; omega, hlt, ?_⟩, by simp; omega⟩
      intro k hk
      obtain ⟨hklt, rfl⟩ := List.getElem?_eq_some_iff.mp hk
      refine ⟨?_, (hin k hk).2⟩
      by_contra hlow
      obtain hlow | heq : k < (i + j) / 2 ∨ k = (i + j) / 2 := by omega
      · exact absurd (hmono k _ hklt hmid hlow) (not_lt_of_gt hx)
      · subst heq
        exact lt_irrefl _ hx
    · refine ⟨(i, (i + j) / 2), by rw [if_neg hx], ⟨by simp; omega, hmid, ?_⟩, by simp; omega⟩
      intro k hk
      obtain ⟨hklt, rfl⟩ := List.getElem?_eq_some_iff.mp hk
      refine ⟨(hin k hk).1, ?_⟩
      by_contra hhigh
      exact hx (hmono _ k hmid hklt (by simpa using hhigh))
  · right
    have heq : i = j := by omega
    subst heq
    exact ⟨i, by simp, hle, hlt, hin⟩

/-- `re_node_set_contains`. -/
theorem contains_spec {set : ReNodeSet} {xs : List Int} (h : Holds set xs) (e : Int) :
    ∃ r, reNodeSetContains set e = some r ∧ (∀ k, r = k + 1 ↔ xs[k]? = some e) ∧
      (r = 0 ↔ e ∉ xs) := by
  unfold reNodeSetContains
  have hn := h.nelem
  by_cases hempty : set.nelem ≤ 0
  · have hnil : xs = [] := List.length_eq_zero_iff.mp (by omega)
    subst hnil
    exact ⟨0, by rw [if_pos hempty], by simp⟩
  · rw [if_neg hempty]
    have hright : (set.nelem - 1).toNat = xs.length - 1 := by omega
    have hstart : Searching xs e (0, xs.length - 1) := by
      refine ⟨Nat.zero_le _, by simp; omega, ?_⟩
      intro k hk
      obtain ⟨hlt, _⟩ := List.getElem?_eq_some_iff.mp hk
      exact ⟨Nat.zero_le _, Nat.le_sub_one_of_lt hlt⟩
    obtain ⟨top, htop⟩ := h.cells
    obtain ⟨i, hloop, hi⟩ := tryLoop_total (fun s : Nat × Nat => s.2 - s.1)
      (fun s hI => searchPass_spec h.sorted e top hI) hstart
      (n := xs.length - 1 + 1) (by simp)
    have hlt : i < xs.length := hi.lt
    have hread : readCell (xs.map some ++ top) (i : Int) = some xs[i] := by
      rw [readCell, getAt_natCast, List.getElem?_append_left (by simpa using hlt)]
      simp [hlt]
    have honly : ∀ k, xs[k]? = some e → k = i := fun k hk =>
      le_antisymm (hi.inside k hk).2 (hi.inside k hk).1
    simp only [hright, htop, hloop, hread, Option.bind_eq_bind, Option.bind_some]
    refine ⟨_, rfl, ?_, ?_⟩
    · intro k
      split
      · next heq =>
        rw [Nat.add_right_cancel_iff]
        refine ⟨?_, fun hk => (honly k hk).symm⟩
        rintro rfl
        rw [List.getElem?_eq_getElem hlt, heq]
      · next hne =>
        refine ⟨fun h0 => absurd h0 (by omega), fun hk => absurd ?_ hne⟩
        obtain rfl := honly k hk
        exact (List.getElem?_eq_some_iff.mp hk).2
    · split
      · next heq => simp [← heq]
      · next hne =>
        simp only [true_iff]
        intro hmem
        obtain ⟨k, hk⟩ := List.mem_iff_getElem?.mp hmem
        obtain rfl := honly k hk
        exact hne (List.getElem?_eq_some_iff.mp hk).2

end Librecompat.NodeSet
