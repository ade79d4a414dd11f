/-
  Calls on node sets whose allocation may fail.

  Such a call reports an error, or does what it does with memory enough. So a call that reports none
  makes a set of indices below `n` of such sets (`Within n`).
-/
import Librecompat.Lib.Yields
import Librecompat.NodeSet.Merge
import Librecompat.NodeSet.Unions

namespace Librecompat.NodeSet

open Librecompat.Lib
open Librecompat.Regex (RegErrcode REG_NOERROR REG_ESPACE)

variable {set dest src src₁ src₂ : ReNodeSet} {n : Nat}

/-! ## Allocations that fail -/

/-- The call is the one with memory enough, or reports an error. -/
def OrFails (r r' : Option (ReNodeSet × RegErrcode)) : Prop :=
  r = r' ∨ ∃ set, r = some (set, REG_ESPACE)

theorem init1_orFails (ok : Bool) (e : Int) :
    OrFails (reNodeSetInit1 ok e) (reNodeSetInit1 true e) := by
  cases ok with
  | true => exact .inl rfl
  | false => exact .inr ⟨_, rfl⟩

theorem init2_orFails (ok : Bool) (set : ReNodeSet) (e₁ e₂ : Int) :
    OrFails (reNodeSetInit2 ok set e₁ e₂) (reNodeSetInit2 true set e₁ e₂) := by
  cases ok with
  | true => exact .inl rfl
  | false => exact .inr ⟨_, rfl⟩

theorem initCopy_orFails (ok : Bool) (src : ReNodeSet) :
    OrFails (reNodeSetInitCopy ok src) (reNodeSetInitCopy true src) := by
  cases ok with
  | true => exact .inl rfl
  | false =>
    unfold reNodeSetInitCopy
    split
    · exact .inr ⟨_, rfl⟩
    · exact .inl rfl

theorem initUnion_orFails (ok : Bool) (dest : ReNodeSet) (src₁ src₂ : Option ReNodeSet) :
    OrFails (reNodeSetInitUnion ok dest src₁ src₂) (reNodeSetInitUnion true dest src₁ src₂) := by
  cases ok with
  | true => exact .inl rfl
  | false =>
    unfold reNodeSetInitUnion
    split
    · exact .inr ⟨_, rfl⟩
    · exact initCopy_orFails false _
    · exact initCopy_orFails false _
    · exact .inl rfl

theorem merge_orFails (ok : Bool) (dest : ReNodeSet) (src : Option ReNodeSet) :
    OrFails (reNodeSetMerge ok dest src) (reNodeSetMerge true dest src) := by
  cases ok with
  | true => exact .inl rfl
  | false =>
    unfold reNodeSetMerge grow
    cases src with
    | none => exact .inl rfl
    | some src =>
      dsimp only
      split
      · exact .inl rfl
      by_cases hsmall : dest.alloc < 2 * src.nelem + dest.nelem
      · simp only [hsmall, decide_true]
        exact .inr ⟨_, rfl⟩
      · simp only [hsmall, decide_false]
        exact .inl rfl

theorem insert_orFails (ok : Bool) (set : ReNodeSet) (e : Int) :
    reNodeSetInsert ok set e = reNodeSetInsert true set e ∨
      ∃ set', reNodeSetInsert ok set e = some (set', false) := by
  cases ok with
  | true => exact .inl rfl
  | false =>
    unfold reNodeSetInsert
    split
    · exact .inr ⟨_, rfl⟩
    split
    · exact .inl rfl
    by_cases hfull : set.alloc = set.nelem
    · rw [if_pos ⟨hfull, rfl⟩]
      exact .inr ⟨_, rfl⟩
    · rw [if_neg (mt And.left hfull), if_neg (mt And.left hfull)]
      exact .inl rfl

/-! ## Sets of indices -/

/-- A set of indices below `n`. -/
def Within (n : Nat) (set : ReNodeSet) : Prop :=
  ∃ xs, Holds set xs ∧ ∀ x ∈ xs, 0 ≤ x ∧ x < n

theorem Within.mono {n' : Nat} (h : Within n set) (hle : n ≤ n') : Within n' set := by
  obtain ⟨xs, hxs, hlt⟩ := h
  exact ⟨xs, hxs, fun x hx => ⟨(hlt x hx).1, (hlt x hx).2.trans_le (Int.ofNat_le.mpr hle)⟩⟩

theorem within_initEmpty (n : Nat) : Within n reNodeSetInitEmpty :=
  ⟨[], holds_initEmpty, by simp⟩

theorem within_alloc (n : Nat) {ok : Bool} {size : Int} (hsize : 0 ≤ size)
    (hok : (reNodeSetAlloc ok size).2 = REG_NOERROR) : Within n (reNodeSetAlloc ok size).1 := by
  cases ok with
  | false => exact absurd hok (show REG_ESPACE ≠ REG_NOERROR by decide)
  | true =>
    obtain ⟨set, hset, hholds, -⟩ := alloc_spec hsize
    rw [hset]
    exact ⟨[], hholds, by simp⟩

/-- `re_node_set_empty`. -/
theorem Within.empty (h : Within n set) : Within n { set with nelem := 0 } := by
  obtain ⟨xs, hxs, -⟩ := h
  exact ⟨[], ⟨List.Pairwise.nil, rfl, hxs.alloc, set.elems, rfl⟩, by simp⟩

/-- What a call leaves that reports no error. -/
theorem OrFails.within {r r' : Option (ReNodeSet × RegErrcode)} (h : OrFails r r')
    (h' : ∃ set, r' = some (set, REG_NOERROR) ∧ Within n set) :
    Yields (fun q => q.2 = REG_NOERROR → Within n q.1) r := by
  obtain ⟨set, rfl, hset⟩ := h'
  obtain rfl | ⟨set', rfl⟩ := h
  · exact yields_some.mpr fun _ => hset
  · exact yields_some.mpr fun herr => absurd herr (show REG_ESPACE ≠ REG_NOERROR by decide)

theorem Within.initCopy {ok : Bool} (h : src.nelem = 0 ∨ Within n src) :
    Yields (fun q => q.2 = REG_NOERROR → Within n q.1) (reNodeSetInitCopy ok src) := by
  refine (initCopy_orFails ok src).within ?_
  obtain hzero | ⟨xs, hxs, hlt⟩ := h
  · exact ⟨_, if_neg (by simp [hzero]), within_initEmpty n⟩
  · obtain ⟨set, hset, hholds⟩ := initCopy_spec hxs
    exact ⟨set, hset, xs, hholds, hlt⟩

theorem Within.initUnion {ok : Bool} (dest : ReNodeSet) (h₁ : Within n src₁) (h₂ : Within n src₂) :
    Yields (fun q => q.2 = REG_NOERROR → Within n q.1)
      (reNodeSetInitUnion ok dest (some src₁) (some src₂)) := by
  refine (initUnion_orFails ok dest _ _).within ?_
  obtain ⟨xs₁, hxs₁, hlt₁⟩ := h₁
  obtain ⟨xs₂, hxs₂, hlt₂⟩ := h₂
  obtain ⟨set, xs, hset, hholds, hmem⟩ := initUnion_spec dest
    (show HoldsOpt (some src₁) xs₁ from hxs₁) (show HoldsOpt (some src₂) xs₂ from hxs₂)
  exact ⟨set, hset, xs, hholds, fun x hx => ((hmem x).mp hx).elim (hlt₁ x) (hlt₂ x)⟩

theorem Within.merge {ok : Bool} (h : Within n dest) (hsrc : src.nelem = 0 ∨ Within n src) :
    Yields (fun q => q.2 = REG_NOERROR → Within n q.1) (reNodeSetMerge ok dest (some src)) := by
  refine (merge_orFails ok dest _).within ?_
  obtain hzero | ⟨xs, hxs, hlt⟩ := hsrc
  · exact ⟨dest, if_pos hzero, h⟩
  · obtain ⟨d, hd, hdlt⟩ := h
    obtain ⟨set, ys, hset, hholds, hmem⟩ := merge_spec hd (show HoldsOpt (some src) xs from hxs)
    exact ⟨set, hset, ys, hholds, fun x hx => ((hmem x).mp hx).elim (hdlt x) (hlt x)⟩

theorem Within.removeAt (h : Within n set) (idx : Int) :
    Yields (Within n) (reNodeSetRemoveAt set idx) := by
  obtain ⟨xs, hxs, hlt⟩ := h
  obtain ⟨set', hset, hholds⟩ := removeAt_spec hxs idx
  rw [hset]
  refine yields_some.mpr ⟨_, hholds, fun x hx => hlt x ?_⟩
  split at hx
  · exact hx
  · exact List.mem_of_mem_eraseIdx hx

end Librecompat.NodeSet
