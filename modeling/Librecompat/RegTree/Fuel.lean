/-
  The fuel of the functions on trees.

  It bounds the passes of the walks only, so a result that there is with some fuel is the result with
  any more.
-/
import Librecompat.Lib.Fuel
import Librecompat.RegTree.Model

namespace Librecompat.RegTree

open Librecompat.Lib

variable {ok : Nat → Bool} {fuel fuel' : Nat}

theorem duplicateTree_below (h : fuel ≤ fuel') (dfa : Dfa) (root : Nat) :
    Below (duplicateTree ok fuel dfa root) (duplicateTree ok fuel' dfa root) :=
  below_bind fun _ _ => tryLoop_below _ h

theorem postorder_below (h : fuel ≤ fuel') (fn : Nat → Dfa → Option Dfa) (dfa : Dfa) (root : Nat) :
    Below (postorder fuel fn dfa root) (postorder fuel' fn dfa root) :=
  tryLoop_below _ h

theorem mandatoryCopies_below (h : fuel ≤ fuel') : ∀ (n : Nat) (dfa : Dfa) (elem tree : Nat),
    Below (mandatoryCopies ok fuel n dfa elem tree) (mandatoryCopies ok fuel' n dfa elem tree)
  | 0, _, _, _ => Below.refl _
  | n + 1, dfa, elem, tree => by
    rw [mandatoryCopies, mandatoryCopies]
    refine (duplicateTree_below h dfa elem).bind fun _ _ => below_bind fun _ _ => ?_
    dsimp only
    split
    · exact mandatoryCopies_below h n _ _ _
    · exact Below.refl _

theorem optionalCopies_below (h : fuel ≤ fuel') : ∀ (n : Nat) (dfa : Dfa) (elem tree : Nat),
    Below (optionalCopies ok fuel n dfa elem tree) (optionalCopies ok fuel' n dfa elem tree)
  | 0, _, _, _ => Below.refl _
  | n + 1, dfa, elem, tree => by
    rw [optionalCopies, optionalCopies]
    refine (duplicateTree_below h dfa elem).bind fun _ _ => below_bind fun _ _ => ?_
    dsimp only
    split
    · refine below_bind fun _ _ => ?_
      split
      · exact optionalCopies_below h n _ _ _
      · exact Below.refl _
    · exact Below.refl _

theorem expandOptional_below (h : fuel ≤ fuel') (dfa : Dfa) (elem : Nat) (oldTree : Option Nat)
    (start stop : Int) : Below (expandOptional ok fuel dfa elem oldTree start stop)
      (expandOptional ok fuel' dfa elem oldTree start stop) := by
  refine below_bind fun node _ => Below.bind ?_ fun _ _ => below_bind fun _ _ => ?_
  · split
    · exact postorder_below h _ _ _
    · exact Below.refl _
  · dsimp only
    split
    · exact Below.refl _
    · exact (optionalCopies_below h _ _ _ _).bind fun _ _ => Below.refl _

theorem expandDup_below (h : fuel ≤ fuel') (dfa : Dfa) (elem : Nat) (start stop : Int) :
    Below (expandDup ok fuel dfa elem start stop) (expandDup ok fuel' dfa elem start stop) := by
  unfold expandDup
  split
  · refine (mandatoryCopies_below h _ _ _ _).bind fun _ _ => ?_
    dsimp only
    split
    · exact Below.refl _
    split
    · exact Below.refl _
    · refine (duplicateTree_below h _ _).bind fun _ _ => ?_
      split
      · exact Below.refl _
      · exact expandOptional_below h _ _ _ _ _
  · exact expandOptional_below h _ _ _ _ _

end Librecompat.RegTree
