/-
  Two lists interleaved.

  `Interleaved xs ys zs` says that `zs` is made of the elements of `xs` and of `ys`, each in their
  order. It describes a stable partition of `zs` without saying what decides about an element.
-/
import Mathlib.Data.List.Perm.Basic

namespace Librecompat.Lib

variable {α : Type}

inductive Interleaved : List α → List α → List α → Prop
  | nil : Interleaved [] [] []
  | left {xs ys zs : List α} (x : α) (h : Interleaved xs ys zs) : Interleaved (x :: xs) ys (x :: zs)
  | right {xs ys zs : List α} (y : α) (h : Interleaved xs ys zs) : Interleaved xs (y :: ys) (y :: zs)

variable {xs ys zs xs' ys' zs' : List α}

theorem Interleaved.of_left : ∀ (xs : List α), Interleaved xs [] xs
  | [] => .nil
  | x :: xs => .left x (of_left xs)

theorem Interleaved.of_right : ∀ (ys : List α), Interleaved [] ys ys
  | [] => .nil
  | y :: ys => .right y (of_right ys)

theorem Interleaved.append (h : Interleaved xs ys zs) (h' : Interleaved xs' ys' zs') :
    Interleaved (xs ++ xs') (ys ++ ys') (zs ++ zs') := by
  induction h with
  | nil => exact h'
  | left x _ ih => exact .left x ih
  | right y _ ih => exact .right y ih

/-- The next elements of the second list, and then the next ones of the first. -/
theorem Interleaved.extend (h : Interleaved xs ys zs) (xs' ys' : List α) :
    Interleaved (xs ++ xs') (ys ++ ys') (zs ++ (ys' ++ xs')) := by
  have hnew := (of_right ys').append (of_left xs')
  rw [List.nil_append, List.append_nil] at hnew
  exact h.append hnew

end Librecompat.Lib
