/-
  `re_node_set_init_union`: the merge of two sets into a block of its own.

  `Uniting` is the loop's invariant. Of each source the elements `q` are done and the elements
  `p` are not; the block starts with the sorted list `w` of those done, all of them below what is
  still to come, and has room for the rest. `unionPass_spec` is one pass, `initUnion_spec` the
  function.
-/
import Librecompat.NodeSet.Elements

namespace Librecompat.NodeSet

open Librecompat.Lib
open Librecompat.Regex (RegErrcode REG_NOERROR REG_ESPACE)

variable {xs₁ xs₂ : List Int}

/-! ## Sorted lists -/

/-- An element above all others goes to the end. -/
theorem sorted_snoc {w : List Int} {x : Int} (hw : w.Pairwise (· < ·)) (hx : ∀ y ∈ w, y < x) :
    (w ++ [x]).Pairwise (· < ·) :=
  List.pairwise_append.mpr ⟨hw, List.pairwise_singleton _ x, by simpa using hx⟩

/-- The head of the rest of a sorted list is below what follows. -/
theorem sorted_head {q p : List Int} {x : Int} (hs : (q ++ x :: p).Pairwise (· < ·)) :
    ∀ y ∈ p, x < y :=
  (List.pairwise_cons.mp (List.pairwise_append.mp hs).2.1).1

/-- The last of the rest of a sorted list is above what precedes. -/
theorem sorted_last {p q : List Int} {x : Int} (hs : ((p ++ [x]) ++ q).Pairwise (· < ·)) :
    ∀ y ∈ p, y < x := by
  have hp := (List.pairwise_append.mp hs).1
  simpa using (List.pairwise_append.mp hp).2.2

/-- What is above the last element is above all of them. -/
theorem lt_of_last {p : List Int} {x y : Int} (hp : ∀ u ∈ p, u < x) (hlt : x < y) :
    ∀ u ∈ p ++ [x], u < y :=
  List.forall_mem_append.mpr
    ⟨fun u hu => (hp u hu).trans hlt, List.forall_mem_singleton.mpr hlt⟩

/-- What is below the first element is below all of them. -/
theorem lt_of_head {p : List Int} {x y : Int} (hp : ∀ u ∈ p, y < u) (hlt : x < y) :
    ∀ u ∈ y :: p, x < u :=
  List.forall_mem_cons.mpr ⟨hlt, fun u hu => hlt.trans (hp u hu)⟩

/-- What is between the last element of `p` and all of `q` is in neither. -/
theorem not_mem_between {p q : List Int} {x y : Int} (hp : ∀ u ∈ p, u < y) (hlt : y < x)
    (hq : ∀ u ∈ q, x < u) : x ∉ (p ++ [y]) ++ q := by
  intro hmem
  rcases List.mem_append.mp hmem with hmem | hmem
  · exact lt_irrefl x (lt_of_last hp hlt x hmem)
  · exact lt_irrefl x (hq x hmem)

/-! ## The loop -/

structure Uniting (q₁ p₁ q₂ p₂ w : List Int) (rest : Cells) : Prop where
  sorted : w.Pairwise (· < ·)
  mem : ∀ x, x ∈ w ↔ x ∈ q₁ ∨ x ∈ q₂
  below : ∀ x ∈ w, ∀ y, y ∈ p₁ ∨ y ∈ p₂ → x < y
  room : p₁.length + p₂.length ≤ rest.length

/-- The next element is above those done and below those still to come. -/
theorem Uniting.next {q₁ p₁ q₂ p₂ w q₁' p₁' q₂' p₂' : List Int} {c : Option Int} {rest : Cells}
    (hI : Uniting q₁ p₁ q₂ p₂ w (c :: rest)) {x : Int} (hx : x ∈ p₁ ∨ x ∈ p₂)
    (hdone : ∀ y, y ∈ q₁' ∨ y ∈ q₂' ↔ (y ∈ q₁ ∨ y ∈ q₂) ∨ y = x)
    (hrest : ∀ y, y ∈ p₁' ∨ y ∈ p₂' → x < y ∧ (y ∈ p₁ ∨ y ∈ p₂))
    (hlen : p₁'.length + p₂'.length < p₁.length + p₂.length) :
    Uniting q₁' p₁' q₂' p₂' (w ++ [x]) rest := by
  refine ⟨sorted_snoc hI.sorted fun y hy => hI.below y hy x hx, ?_, ?_, ?_⟩
  · intro y
    rw [List.mem_append, List.mem_singleton, hI.mem y, hdone y]
  · intro u hu y hy
    rcases List.mem_append.mp hu with hu | hu
    · exact hI.below u hu y (hrest y hy).2
    · rw [List.mem_singleton.mp hu]
      exact (hrest y hy).1
  · have := hI.room
    rw [List.length_cons] at this
    omega

/-- The state of the loop as the invariant has it. -/
def unionState (q₁ q₂ w : List Int) (rest : Cells) : Union :=
  ⟨w.map some ++ rest, q₁.length, q₂.length, w.length⟩

/-- Writing the next element. -/
theorem setAt_next (w : List Int) (c : Option Int) (rest : Cells) (x : Int) :
    setAt (w.map some ++ c :: rest) (w.length : Nat) (some x) =
      some ((w ++ [x]).map some ++ rest) := by
  rw [setAt_append_cons _ _ c (some x) (by simp)]
  simp

theorem unionPass_spec {src₁ src₂ : ReNodeSet} (h₁ : Holds src₁ xs₁) (h₂ : Holds src₂ xs₂)
    {q₁ p₁ q₂ p₂ w : List Int} {rest : Cells} (hx₁ : xs₁ = q₁ ++ p₁) (hx₂ : xs₂ = q₂ ++ p₂)
    (hI : Uniting q₁ p₁ q₂ p₂ w rest) :
    (∃ q₁' p₁' q₂' p₂' w' rest', xs₁ = q₁' ++ p₁' ∧ xs₂ = q₂' ++ p₂' ∧
      unionPass src₁ src₂ (unionState q₁ q₂ w rest) =
        some (.inl (unionState q₁' q₂' w' rest')) ∧ Uniting q₁' p₁' q₂' p₂' w' rest' ∧
      w'.length + rest'.length = w.length + rest.length ∧
      p₁'.length + p₂'.length < p₁.length + p₂.length) ∨
    unionPass src₁ src₂ (unionState q₁ q₂ w rest) = some (.inr (unionState q₁ q₂ w rest)) ∧
      (p₁ = [] ∨ p₂ = []) := by
  have hn₁ := h₁.nelem
  have hn₂ := h₂.nelem
  have hs₁ := h₁.sorted
  have hs₂ := h₂.sorted
  subst hx₁ hx₂
  rw [List.length_append] at hn₁ hn₂
  cases p₁ with
  | nil => exact .inr ⟨by simp [unionPass, unionState, hn₁], .inl rfl⟩
  | cons x p₁ =>
    cases p₂ with
    | nil => exact .inr ⟨by simp [unionPass, unionState, hn₂], .inr rfl⟩
    | cons y p₂ =>
      left
      cases rest with
      | nil => exact absurd hI.room (by simp)
      | cons c rest =>
        have hread₁ : readCell src₁.elems (q₁.length : Nat) = some x := h₁.read rfl
        have hread₂ : readCell src₂.elems (q₂.length : Nat) = some y := h₂.read rfl
        have hcond : (q₁.length : Int) < src₁.nelem ∧ (q₂.length : Int) < src₂.nelem := by
          simp only [List.length_cons] at hn₁ hn₂
          omega
        have hxp := sorted_head hs₁
        have hyp := sorted_head hs₂
        -- the smaller of the two heads is the next element
        rcases lt_trichotomy x y with hlt | heq | hgt
        · have hngt : ¬ x > y := not_lt_of_gt hlt
          refine ⟨q₁ ++ [x], p₁, q₂, y :: p₂, w ++ [x], rest, by simp, rfl, ?_,
            hI.next (.inl List.mem_cons_self) (fun v => by simp; tauto) ?_ (by simp),
            by simp; omega, by simp⟩
          · simp [unionPass, unionState, hcond, hread₁, hread₂, hngt, hlt.ne, setAt_next]
          · rintro v (hv | hv)
            · exact ⟨hxp v hv, .inl (List.mem_cons_of_mem x hv)⟩
            · exact ⟨lt_of_head hyp hlt v hv, .inr hv⟩
        · subst heq
          refine ⟨q₁ ++ [x], p₁, q₂ ++ [x], p₂, w ++ [x], rest, by simp, by simp, ?_,
            hI.next (.inl List.mem_cons_self) (fun v => by simp; tauto) ?_ (by simp; omega),
            by simp; omega, by simp; omega⟩
          · simp [unionPass, unionState, hcond, hread₁, hread₂, setAt_next]
          · rintro v (hv | hv)
            · exact ⟨hxp v hv, .inl (List.mem_cons_of_mem x hv)⟩
            · exact ⟨hyp v hv, .inr (List.mem_cons_of_mem x hv)⟩
        · refine ⟨q₁, x :: p₁, q₂ ++ [y], p₂, w ++ [y], rest, rfl, by simp, ?_,
            hI.next (.inr List.mem_cons_self) (fun v => by simp; tauto) ?_ (by simp),
            by simp; omega, by simp⟩
          · simp [unionPass, unionState, hcond, hread₁, hread₂, hgt, setAt_next]
          · rintro v (hv | hv)
            · exact ⟨lt_of_head hxp hgt v hv, .inl hv⟩
            · exact ⟨hyp v hv, .inr (List.mem_cons_of_mem y hv)⟩

/-! ## The function -/

/-- When one source is exhausted, the rest of the other is copied. -/
theorem copy_rest {src : ReNodeSet} {xs q p w : List Int} {rest : Cells} (h : Holds src xs)
    (hx : xs = q ++ p) (hw : w.Pairwise (· < ·)) (hbelow : ∀ x ∈ w, ∀ y ∈ p, x < y)
    (hroom : p.length ≤ rest.length) {alloc : Int} (halloc : alloc = w.length + rest.length) :
    ∃ elems, ((getRange src.elems (q.length : Nat) (src.nelem - (q.length : Nat))).bind fun ys =>
        setRange (w.map some ++ rest) (w.length : Nat) ys) = some elems ∧
      Holds ⟨alloc, w.length + (src.nelem - (q.length : Nat)), elems⟩ (w ++ p) := by
  have hn := h.nelem
  have hs := h.sorted
  subst hx
  rw [List.length_append] at hn
  have hxs : Holds src (q ++ p ++ []) := by simpa using h
  have hread := hxs.readRange (i := (q.length : Nat)) (n := src.nelem - (q.length : Nat)) rfl
    (by omega)
  have hsplit : rest = rest.take p.length ++ rest.drop p.length := by simp
  have hwrite := setRange_append (w.map some) (rest.drop p.length) (p.map some)
    (b := rest.take p.length) (i := (w.length : Nat)) (by simp) (by simpa using hroom)
  rw [List.append_assoc, ← hsplit] at hwrite
  refine ⟨_, by rw [hread, Option.bind_some, hwrite], ?_, ?_, ?_, rest.drop p.length, by simp⟩
  · exact List.pairwise_append.mpr ⟨hw, (List.pairwise_append.mp hs).2.1, hbelow⟩
  · rw [List.length_append]
    simp only
    omega
  · simp only [List.length_append, List.length_map, List.length_drop]
    omega

/-- The loop goes on until one source is exhausted. -/
theorem union_spec {src₁ src₂ : ReNodeSet} (h₁ : Holds src₁ xs₁) (h₂ : Holds src₂ xs₂) :
    ∃ q₁ p₁ q₂ p₂ w rest, xs₁ = q₁ ++ p₁ ∧ xs₂ = q₂ ++ p₂ ∧
      tryLoop (unionPass src₁ src₂) ((src₁.nelem + src₂.nelem).toNat + 1)
        ⟨reMalloc (src₁.nelem + src₂.nelem), 0, 0, 0⟩ = some (unionState q₁ q₂ w rest) ∧
      Uniting q₁ p₁ q₂ p₂ w rest ∧ w.length + rest.length = xs₁.length + xs₂.length ∧
      ¬ ((q₁.length : Int) < src₁.nelem ∧ (q₂.length : Int) < src₂.nelem) := by
  have hn₁ := h₁.nelem
  have hn₂ := h₂.nelem
  let I (s : Union) : Prop := ∃ q₁ p₁ q₂ p₂ w rest, xs₁ = q₁ ++ p₁ ∧ xs₂ = q₂ ++ p₂ ∧
    s = unionState q₁ q₂ w rest ∧ Uniting q₁ p₁ q₂ p₂ w rest ∧
    w.length + rest.length = xs₁.length + xs₂.length
  let μ (s : Union) : Nat := (src₁.nelem - s.i1).toNat + (src₂.nelem - s.i2).toNat
  have hpass : ∀ s, I s → (∃ s', unionPass src₁ src₂ s = some (.inl s') ∧ I s' ∧ μ s' < μ s) ∨
      ∃ r, unionPass src₁ src₂ s = some (.inr r) ∧ I r ∧
        ¬ (r.i1 < src₁.nelem ∧ r.i2 < src₂.nelem) := by
    rintro s ⟨q₁, p₁, q₂, p₂, w, rest, hx₁, hx₂, rfl, hI, hlen⟩
    obtain ⟨q₁', p₁', q₂', p₂', w', rest', hx₁', hx₂', hb, hI', hlen', hlt⟩ | ⟨hb, hexit⟩ :=
      unionPass_spec h₁ h₂ hx₁ hx₂ hI
    · refine .inl ⟨_, hb, ⟨q₁', p₁', q₂', p₂', w', rest', hx₁', hx₂', rfl, hI', by omega⟩, ?_⟩
      have e₁ := congrArg List.length hx₁
      have e₂ := congrArg List.length hx₂
      have e₁' := congrArg List.length hx₁'
      have e₂' := congrArg List.length hx₂'
      simp only [List.length_append] at e₁ e₂ e₁' e₂'
      simp only [μ, unionState]
      omega
    · refine .inr ⟨_, hb, ⟨q₁, p₁, q₂, p₂, w, rest, hx₁, hx₂, rfl, hI, hlen⟩, ?_⟩
      rw [hn₁, hn₂, hx₁, hx₂]
      rcases hexit with rfl | rfl <;> simp [unionState]
  have hstart : I ⟨reMalloc (src₁.nelem + src₂.nelem), 0, 0, 0⟩ := by
    refine ⟨[], xs₁, [], xs₂, [], _, rfl, rfl, rfl, ⟨List.Pairwise.nil, by simp, by simp, ?_⟩, ?_⟩
    · rw [List.length_replicate]
      omega
    · rw [List.length_replicate, List.length_nil]
      omega
  obtain ⟨s, hloop, ⟨q₁, p₁, q₂, p₂, w, rest, hx₁, hx₂, rfl, hI, hlen⟩, hexit⟩ :=
    tryLoop_total μ hpass hstart (n := (src₁.nelem + src₂.nelem).toNat + 1) (by simp [μ]; omega)
  exact ⟨q₁, p₁, q₂, p₂, w, rest, hx₁, hx₂, hloop, hI, hlen, hexit⟩

theorem unionInto_spec {src₁ src₂ : ReNodeSet} (h₁ : Holds src₁ xs₁) (h₂ : Holds src₂ xs₂) :
    ∃ set xs, unionInto src₁ src₂ = some set ∧ Holds set xs ∧
      ∀ x, x ∈ xs ↔ x ∈ xs₁ ∨ x ∈ xs₂ := by
  have hn₁ := h₁.nelem
  have hn₂ := h₂.nelem
  obtain ⟨q₁, p₁, q₂, p₂, w, rest, hx₁, hx₂, hloop, hI, hlen, hexit⟩ := union_spec h₁ h₂
  have e₁ := congrArg List.length hx₁
  have e₂ := congrArg List.length hx₂
  simp only [List.length_append] at e₁ e₂
  have hroom := hI.room
  unfold unionInto
  simp only [hloop, Option.bind_eq_bind, Option.bind_some, unionState]
  by_cases hlt₁ : (q₁.length : Int) < src₁.nelem
  · have hp₂ : p₂ = [] := List.length_eq_zero_iff.mp (by omega)
    obtain ⟨elems, hcopy, hholds⟩ := copy_rest h₁ hx₁ hI.sorted
      (fun x hx y hy => hI.below x hx y (.inl hy)) (by omega : p₁.length ≤ rest.length)
      (by omega : src₁.nelem + src₂.nelem = (w.length : Int) + rest.length)
    refine ⟨_, w ++ p₁, ?_, hholds, ?_⟩
    · rw [if_pos hlt₁, ← Option.bind_assoc, hcopy, Option.bind_some]
    · intro x
      rw [hx₁, hx₂, hp₂]
      simp only [List.mem_append, hI.mem x, List.append_nil]
      tauto
  · have hp₁ : p₁ = [] := List.length_eq_zero_iff.mp (by omega)
    obtain ⟨elems, hcopy, hholds⟩ := copy_rest h₂ hx₂ hI.sorted
      (fun x hx y hy => hI.below x hx y (.inr hy)) (by omega : p₂.length ≤ rest.length)
      (by omega : src₁.nelem + src₂.nelem = (w.length : Int) + rest.length)
    have hmem : ∀ x, x ∈ w ++ p₂ ↔ x ∈ xs₁ ∨ x ∈ xs₂ := by
      intro x
      rw [hx₁, hx₂, hp₁]
      simp only [List.mem_append, hI.mem x, List.append_nil]
      tauto
    rw [if_neg hlt₁]
    by_cases hlt₂ : (q₂.length : Int) < src₂.nelem
    · refine ⟨_, w ++ p₂, ?_, hholds, hmem⟩
      rw [if_pos hlt₂, ← Option.bind_assoc, hcopy, Option.bind_some]
    · have hp₂ : p₂ = [] := List.length_eq_zero_iff.mp (by omega)
      rw [hp₂, List.append_nil] at hmem
      rw [if_neg hlt₂]
      refine ⟨_, w, rfl, ⟨hI.sorted, rfl, ?_, rest, rfl⟩, hmem⟩
      simp only [List.length_append, List.length_map]
      omega

/-- What a source that may be a null pointer contributes. -/
def HoldsOpt : Option ReNodeSet → List Int → Prop
  | none, xs => xs = []
  | some set, xs => Holds set xs

theorem HoldsOpt.filter {src : Option ReNodeSet} {xs : List Int} (h : HoldsOpt src xs) :
    (src.filter (·.nelem > 0) = none ∧ xs = []) ∨
      ∃ set, src.filter (·.nelem > 0) = some set ∧ Holds set xs := by
  cases src with
  | none => exact .inl ⟨rfl, h⟩
  | some set =>
    have hn := Holds.nelem h
    by_cases hpos : set.nelem > 0
    · exact .inr ⟨set, by simp [hpos], h⟩
    · exact .inl ⟨by simpa using hpos, List.length_eq_zero_iff.mp (by omega)⟩

/-- `re_node_set_init_union`. -/
theorem initUnion_spec {src₁ src₂ : Option ReNodeSet} (dest : ReNodeSet) (h₁ : HoldsOpt src₁ xs₁)
    (h₂ : HoldsOpt src₂ xs₂) :
    ∃ set xs, reNodeSetInitUnion true dest src₁ src₂ = some (set, REG_NOERROR) ∧ Holds set xs ∧
      ∀ x, x ∈ xs ↔ x ∈ xs₁ ∨ x ∈ xs₂ := by
  unfold reNodeSetInitUnion
  obtain ⟨e₁, rfl⟩ | ⟨s₁, e₁, hs₁⟩ := h₁.filter
  · obtain ⟨e₂, rfl⟩ | ⟨s₂, e₂, hs₂⟩ := h₂.filter
    · exact ⟨_, [], by simp [e₁, e₂], holds_initEmpty, by simp⟩
    · obtain ⟨set, hset, hholds⟩ := initCopy_spec hs₂
      exact ⟨set, xs₂, by simp [e₁, e₂, hset], hholds, by simp⟩
  · obtain ⟨e₂, rfl⟩ | ⟨s₂, e₂, hs₂⟩ := h₂.filter
    · obtain ⟨set, hset, hholds⟩ := initCopy_spec hs₁
      exact ⟨set, xs₁, by simp [e₁, e₂, hset], hholds, by simp⟩
    · obtain ⟨set, xs, hset, hholds, hmem⟩ := unionInto_spec hs₁ hs₂
      exact ⟨set, xs, by simp [e₁, e₂, hset], hholds, hmem⟩

end Librecompat.NodeSet
