/-
  Node sets over whole runs: any number of set objects and any sequence of calls on them.

  `Call.meaning` is what a call does to the finite sets that the objects stand for, `Represents`
  says that every object holds its set. `step_spec` is one call; `nodeSets_correct` is the run:
  no call leaves a block, and the objects hold what the calls mean.
-/
import Librecompat.NodeSet.Intersect
import Librecompat.Lib.Run
import Mathlib.Data.Finset.Card

namespace Librecompat.NodeSet

open Librecompat.Lib
open Librecompat.Regex (RegErrcode REG_NOERROR REG_ESPACE)

/-! ## Calls -/

/-- A call; the set objects are known by numbers, a null pointer is `none`. -/
inductive Call where
  | init1 (dest : Nat) (elem : Int)
  | init2 (dest : Nat) (elem1 elem2 : Int)
  | initCopy (dest src : Nat)
  | initUnion (dest : Nat) (src1 src2 : Option Nat)
  | addIntersect (dest src1 src2 : Nat)
  | merge (dest : Nat) (src : Option Nat)
  | insert (set : Nat) (elem : Int)
  | insertLast (set : Nat) (elem : Int)
  | removeAt (set : Nat) (idx : Int)
  | contains (set : Nat) (elem : Int)

/-- The set objects. -/
abbrev Objects := Nat → ReNodeSet

/-- The same family with another value for `i`. -/
def put {β : Type} (f : Nat → β) (i : Nat) (b : β) : Nat → β := fun j => if j = i then b else f j

/-- The object after a call that has to report success. -/
def putOk {ε : Type} [DecidableEq ε] (sets : Objects) (dest : Nat) (good : ε)
    (r : Option (ReNodeSet × ε)) : Option Objects :=
  r.bind fun (set, err) => if err = good then some (put sets dest set) else none

/-- A call whose allocation, if it makes one, succeeds; `none` when it goes wrong. -/
def step (sets : Objects) : Call → Option Objects
  | .init1 dest elem => putOk sets dest REG_NOERROR (reNodeSetInit1 true elem)
  | .init2 dest elem1 elem2 =>
    putOk sets dest REG_NOERROR (reNodeSetInit2 true (sets dest) elem1 elem2)
  | .initCopy dest src => putOk sets dest REG_NOERROR (reNodeSetInitCopy true (sets src))
  | .initUnion dest src1 src2 =>
    putOk sets dest REG_NOERROR
      (reNodeSetInitUnion true (sets dest) (src1.map sets) (src2.map sets))
  | .addIntersect dest src1 src2 =>
    putOk sets dest REG_NOERROR
      (reNodeSetAddIntersect true (sets dest) (sets src1) (sets src2))
  | .merge dest src => putOk sets dest REG_NOERROR (reNodeSetMerge true (sets dest) (src.map sets))
  | .insert set elem => putOk sets set true (reNodeSetInsert true (sets set) elem)
  | .insertLast set elem => putOk sets set true (reNodeSetInsertLast true (sets set) elem)
  | .removeAt set idx => (reNodeSetRemoveAt (sets set) idx).map (put sets set)
  | .contains set elem => (reNodeSetContains (sets set) elem).map fun _ => sets

/-- What a caller has to respect: distinct objects, and the comments on the two insertions. -/
def Call.allowed (sets : Objects) : Call → Prop
  | .initCopy dest src => dest ≠ src
  | .initUnion dest src1 src2 => src1 ≠ some dest ∧ src2 ≠ some dest
  | .addIntersect dest src1 src2 => dest ≠ src1 ∧ dest ≠ src2
  | .merge dest src => src ≠ some dest
  | .insert set elem => elem ∉ (sets set).members
  | .insertLast set elem => ∀ x ∈ (sets set).members, x < elem
  | _ => True

instance (sets : Objects) : ∀ call : Call, Decidable (call.allowed sets)
  | .initCopy _ _ => inferInstanceAs (Decidable (_ ≠ _))
  | .initUnion _ _ _ => inferInstanceAs (Decidable (_ ∧ _))
  | .addIntersect _ _ _ => inferInstanceAs (Decidable (_ ∧ _))
  | .merge _ _ => inferInstanceAs (Decidable (_ ≠ _))
  | .insert set elem => inferInstanceAs (Decidable (elem ∉ (sets set).members))
  | .insertLast set elem => inferInstanceAs (Decidable (∀ x ∈ (sets set).members, x < elem))
  | .init1 _ _ | .init2 _ _ _ | .removeAt _ _ | .contains _ _ => isTrue trivial

/-! ## What the calls mean -/

/-- The set that a pointer stands for. -/
def pointee (sets : Nat → Finset Int) : Option Nat → Finset Int
  | none => ∅
  | some i => sets i

/-- What a call does to the sets; `idx` in `re_node_set_remove_at` is a number of smaller
    elements. -/
def Call.meaning (sets : Nat → Finset Int) : Call → Nat → Finset Int
  | .init1 dest elem => put sets dest {elem}
  | .init2 dest elem1 elem2 => put sets dest {elem1, elem2}
  | .initCopy dest src => put sets dest (sets src)
  | .initUnion dest src1 src2 => put sets dest (pointee sets src1 ∪ pointee sets src2)
  | .addIntersect dest src1 src2 => put sets dest (sets dest ∪ (sets src1 ∩ sets src2))
  | .merge dest src => put sets dest (sets dest ∪ pointee sets src)
  | .insert set elem | .insertLast set elem => put sets set (sets set ∪ {elem})
  | .removeAt set idx =>
    put sets set ((sets set).filter fun x => (((sets set).filter (· < x)).card : Int) ≠ idx)
  | .contains _ _ => sets

/-- Every object holds its set. -/
def Represents (sets : Objects) (abs : Nat → Finset Int) : Prop :=
  ∀ i, ∃ xs, Holds (sets i) xs ∧ xs.toFinset = abs i

/-- The index of an element is the number of smaller ones. -/
theorem card_smaller {xs : List Int} (hs : xs.Pairwise (· < ·)) {k : Nat} (hk : k < xs.length) :
    (xs.toFinset.filter (· < xs[k])).card = k := by
  have hsmaller : xs.toFinset.filter (· < xs[k]) = (xs.take k).toFinset := by
    have hmono := List.pairwise_iff_getElem.mp hs
    ext x
    simp only [Finset.mem_filter, List.mem_toFinset, List.mem_take_iff_getElem]
    constructor
    · rintro ⟨hx, hlt⟩
      obtain ⟨j, hj, rfl⟩ := List.mem_iff_getElem.mp hx
      refine ⟨j, ?_, rfl⟩
      by_contra hge
      obtain heq | hgt : j = k ∨ k < j := by omega
      · subst heq
        exact lt_irrefl _ hlt
      · exact lt_asymm hlt (hmono k j hk hj hgt)
    · rintro ⟨j, hj, rfl⟩
      exact ⟨List.getElem_mem _, hmono j k (by omega) hk (by omega)⟩
  have hnodup : (xs.take k).Nodup := (hs.sublist (List.take_sublist k xs)).imp ne_of_lt
  rw [hsmaller, List.toFinset_card_of_nodup hnodup, List.length_take_of_le hk.le]

theorem toFinset_eraseIdx {xs : List Int} (hs : xs.Pairwise (· < ·)) (idx : Int) :
    (if idx < 0 then xs else xs.eraseIdx idx.toNat).toFinset =
      xs.toFinset.filter fun x => ((xs.toFinset.filter (· < x)).card : Int) ≠ idx := by
  ext x
  rw [List.mem_toFinset, Finset.mem_filter, List.mem_toFinset]
  split
  · next hneg =>
    refine ⟨fun hx => ⟨hx, by omega⟩, And.left⟩
  · next hpos =>
    rw [List.mem_eraseIdx_iff_getElem]
    constructor
    · rintro ⟨j, hj, hne, rfl⟩
      refine ⟨List.getElem_mem hj, ?_⟩
      rw [card_smaller hs hj]
      omega
    · rintro ⟨hx, hne⟩
      obtain ⟨j, hj, rfl⟩ := List.mem_iff_getElem.mp hx
      rw [card_smaller hs hj] at hne
      exact ⟨j, hj, by omega, rfl⟩

/-! ## One call -/

variable {sets : Objects} {abs : Nat → Finset Int}

theorem represents_put (h : Represents sets abs) {dest : Nat} {set : ReNodeSet} {xs : List Int}
    {s : Finset Int} (hset : Holds set xs) (hs : ∀ x, x ∈ xs ↔ x ∈ s) :
    Represents (put sets dest set) (put abs dest s) := by
  intro i
  unfold put
  split
  · exact ⟨xs, hset, by ext x; rw [List.mem_toFinset, hs x]⟩
  · exact h i

theorem putOk_some {ε : Type} [DecidableEq ε] (dest : Nat) (good : ε) (set : ReNodeSet) :
    putOk sets dest good (some (set, good)) = some (put sets dest set) := by
  simp [putOk]

theorem Represents.pointee (h : Represents sets abs) (src : Option Nat) :
    ∃ xs, HoldsOpt (src.map sets) xs ∧ ∀ x, x ∈ xs ↔ x ∈ pointee abs src := by
  cases src with
  | none => exact ⟨[], rfl, by simp [NodeSet.pointee]⟩
  | some i =>
    obtain ⟨xs, hxs, habs⟩ := h i
    exact ⟨xs, hxs, fun x => by rw [← List.mem_toFinset, habs]; rfl⟩

theorem Represents.exists_holds (h : Represents sets abs) (i : Nat) :
    ∃ xs, Holds (sets i) xs ∧ ∀ x, x ∈ xs ↔ x ∈ abs i := by
  obtain ⟨xs, hxs, habs⟩ := h i
  exact ⟨xs, hxs, fun x => by rw [← List.mem_toFinset, habs]⟩

/-- An allowed call does not go wrong and does what it means. -/
theorem step_spec (h : Represents sets abs) (call : Call) (hok : call.allowed sets) :
    ∃ sets', step sets call = some sets' ∧ Represents sets' (call.meaning abs) := by
  cases call with
  | init1 dest elem =>
    obtain ⟨set, hset, hholds⟩ := init1_spec elem
    exact ⟨_, by rw [step, hset, putOk_some], represents_put h hholds (by simp)⟩
  | init2 dest elem1 elem2 =>
    obtain ⟨set, xs, hset, hholds, hmem⟩ := init2_spec (sets dest) elem1 elem2
    exact ⟨_, by rw [step, hset, putOk_some], represents_put h hholds (by simpa using hmem)⟩
  | initCopy dest src =>
    obtain ⟨xs, hxs, hmem⟩ := h.exists_holds src
    obtain ⟨set, hset, hholds⟩ := initCopy_spec hxs
    exact ⟨_, by rw [step, hset, putOk_some], represents_put h hholds hmem⟩
  | initUnion dest src1 src2 =>
    obtain ⟨xs₁, h₁, hmem₁⟩ := h.pointee src1
    obtain ⟨xs₂, h₂, hmem₂⟩ := h.pointee src2
    obtain ⟨set, xs, hset, hholds, hmem⟩ := initUnion_spec (sets dest) h₁ h₂
    refine ⟨_, by rw [step, hset, putOk_some], represents_put h hholds fun x => ?_⟩
    rw [hmem x, hmem₁ x, hmem₂ x, Finset.mem_union]
  | addIntersect dest src1 src2 =>
    obtain ⟨d, hd, hmemd⟩ := h.exists_holds dest
    obtain ⟨xs₁, h₁, hmem₁⟩ := h.exists_holds src1
    obtain ⟨xs₂, h₂, hmem₂⟩ := h.exists_holds src2
    obtain ⟨set, xs, hset, hholds, hmem⟩ := addIntersect_spec hd h₁ h₂
    refine ⟨_, by rw [step, hset, putOk_some], represents_put h hholds fun x => ?_⟩
    rw [hmem x, hmemd x, hmem₁ x, hmem₂ x, Finset.mem_union, Finset.mem_inter]
  | merge dest src =>
    obtain ⟨d, hd, hmemd⟩ := h.exists_holds dest
    obtain ⟨xs₁, h₁, hmem₁⟩ := h.pointee src
    obtain ⟨set, xs, hset, hholds, hmem⟩ := merge_spec hd h₁
    refine ⟨_, by rw [step, hset, putOk_some], represents_put h hholds fun x => ?_⟩
    rw [hmem x, hmemd x, hmem₁ x, Finset.mem_union]
  | insert dest elem =>
    obtain ⟨d, hd, hmemd⟩ := h.exists_holds dest
    have habsent : elem ∉ d := by rwa [← hd.members]
    obtain ⟨lo, hi, rfl, hlo, hhi⟩ := exists_place hd.sorted habsent
    obtain ⟨set, hset, hholds⟩ := insert_spec hd hlo hhi
    refine ⟨_, by rw [step, hset, putOk_some], represents_put h hholds fun x => ?_⟩
    rw [Finset.mem_union, Finset.mem_singleton, ← hmemd x]
    simp only [List.mem_append, List.mem_cons]
    tauto
  | insertLast dest elem =>
    obtain ⟨d, hd, hmemd⟩ := h.exists_holds dest
    have habove : ∀ x ∈ d, x < elem := by rwa [← hd.members]
    obtain ⟨set, hset, hholds⟩ := insertLast_spec hd habove
    refine ⟨_, by rw [step, hset, putOk_some], represents_put h hholds fun x => ?_⟩
    rw [Finset.mem_union, Finset.mem_singleton, ← hmemd x]
    simp only [List.mem_append, List.mem_singleton]
  | removeAt dest idx =>
    obtain ⟨d, hd, hmemd⟩ := h dest
    obtain ⟨set, hset, hholds⟩ := removeAt_spec hd idx
    refine ⟨_, by rw [step, hset, Option.map_some], represents_put h hholds fun x => ?_⟩
    rw [← List.mem_toFinset, toFinset_eraseIdx hd.sorted idx, hmemd]
  | contains dest elem =>
    obtain ⟨d, hd, _⟩ := h dest
    obtain ⟨r, hr, _⟩ := contains_spec hd elem
    exact ⟨sets, by rw [step, hr, Option.map_some], h⟩

/-! ## Runs -/

theorem run_spec {calls : List Call} : ∀ {sets : Objects} {abs : Nat → Finset Int},
    Represents sets abs → Legal step Call.allowed sets calls →
    ∃ sets', run step sets calls = some sets' ∧
      Represents sets' (calls.foldl Call.meaning abs) := by
  induction calls with
  | nil => exact fun h _ => ⟨_, rfl, h⟩
  | cons call calls ih =>
    rintro sets abs h ⟨hok, hlegal⟩
    obtain ⟨sets', hstep, h'⟩ := step_spec h call hok
    obtain ⟨sets'', hrun, h''⟩ := ih h' (hlegal sets' hstep)
    exact ⟨sets'', by rw [run_cons, hstep, Option.bind_some, hrun], h''⟩

/-- Sets that start empty hold, after any calls, what the calls mean, in strictly increasing
    order and inside their blocks; a search finds the members and nothing else. -/
theorem nodeSets_correct {calls : List Call}
    (h : Legal step Call.allowed (fun _ => reNodeSetInitEmpty) calls) :
    ∃ sets, run step (fun _ => reNodeSetInitEmpty) calls = some sets ∧
      ∀ i, ∃ xs, Holds (sets i) xs ∧ (sets i).nelem ≤ (sets i).alloc ∧
        xs.toFinset = calls.foldl Call.meaning (fun _ => ∅) i ∧
        ∀ elem, ∃ r, reNodeSetContains (sets i) elem = some r ∧
          (∀ k, r = k + 1 ↔ xs[k]? = some elem) ∧
          (r = 0 ↔ elem ∉ calls.foldl Call.meaning (fun _ => ∅) i) := by
  have hstart : Represents (fun _ => reNodeSetInitEmpty) fun _ => ∅ :=
    fun _ => ⟨[], holds_initEmpty, rfl⟩
  obtain ⟨sets, hrun, hrep⟩ := run_spec hstart h
  refine ⟨sets, hrun, fun i => ?_⟩
  obtain ⟨xs, hxs, habs⟩ := hrep i
  refine ⟨xs, hxs, hxs.nelem_le, habs, fun elem => ?_⟩
  obtain ⟨r, hr, hidx, hzero⟩ := contains_spec hxs elem
  exact ⟨r, hr, hidx, by rw [hzero, ← habs, List.mem_toFinset]⟩

/-- Sets that are copied, merged and intersected, one of them grown by insertions. -/
theorem nodeSets_correct_merged : ∃ sets, run step (fun _ => reNodeSetInitEmpty)
      [.init2 0 5 3, .insert 0 4, .insert 0 1, .initCopy 1 0, .removeAt 1 0, .insertLast 1 9,
        .init1 2 7, .merge 2 (some 1), .initUnion 3 (some 0) (some 2), .addIntersect 0 3 1,
        .contains 0 9] = some sets ∧
    ∃ xs, Holds (sets 0) xs ∧ xs.toFinset = {1, 3, 4, 5, 9} := by
  obtain ⟨sets, hrun, h⟩ := @nodeSets_correct
    [.init2 0 5 3, .insert 0 4, .insert 0 1, .initCopy 1 0, .removeAt 1 0,
      .insertLast 1 9, .init1 2 7, .merge 2 (some 1), .initUnion 3 (some 0) (some 2),
      .addIntersect 0 3 1, .contains 0 9] (by decide)
  obtain ⟨xs, hxs, _, hmem, _⟩ := h 0
  exact ⟨sets, hrun, xs, hxs, hmem.trans (by decide)⟩

end Librecompat.NodeSet
