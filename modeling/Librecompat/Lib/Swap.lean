/-
  Swapping two elements of an array, and two blocks of the same length element by element.

  `none` is an access outside the array. `swapRange_blocks` is the effect on two disjoint blocks:
  they change places and nothing else moves.
-/
import Mathlib.Data.List.Basic

namespace Librecompat.Lib

variable {α : Type}

/-- Exchange the elements at `i` and `j`. -/
def swapAt (xs : List α) (i j : Nat) : Option (List α) := do
  let x ← xs[i]?
  let y ← xs[j]?
  some ((xs.set i y).set j x)

/-- Exchange the `n` elements from `i` on with the `n` elements from `j` on, one after the other. -/
def swapRange (xs : List α) (i j n : Nat) : Option (List α) :=
  (List.range n).foldlM (fun xs k => swapAt xs (i + k) (j + k)) xs

theorem swapAt_middle (pre mid post : List α) (x y : α) :
    swapAt (pre ++ x :: (mid ++ y :: post)) pre.length (pre.length + (mid.length + 1)) =
      some (pre ++ y :: (mid ++ x :: post)) := by
  have hx : (pre ++ x :: (mid ++ y :: post))[pre.length]? = some x := by simp
  have hy : (pre ++ x :: (mid ++ y :: post))[pre.length + (mid.length + 1)]? = some y := by
    rw [List.getElem?_append_right (Nat.le_add_right _ _), Nat.add_sub_cancel_left]
    simp
  unfold swapAt
  rw [hx, hy, Option.bind_eq_bind, Option.bind_some, Option.bind_some,
    List.set_append_right _ _ (Nat.le_refl _), Nat.sub_self, List.set_cons_zero,
    List.set_append_right _ _ (Nat.le_add_right _ _), Nat.add_sub_cancel_left, List.set_cons_succ,
    List.set_append_right _ _ (Nat.le_refl _), Nat.sub_self, List.set_cons_zero]

theorem swapRange_zero (xs : List α) (i j : Nat) : swapRange xs i j 0 = some xs := rfl

theorem swapRange_succ (xs : List α) (i j n : Nat) :
    swapRange xs i j (n + 1) = (swapAt xs i j).bind fun xs => swapRange xs (i + 1) (j + 1) n := by
  unfold swapRange
  rw [List.range_succ_eq_map, List.foldlM_cons, Option.bind_eq_bind]
  simp only [List.foldlM_map, Nat.add_zero, Nat.succ_eq_add_one, Nat.add_comm, Nat.add_left_comm]

/-- Two blocks of the same length change places. -/
theorem swapRange_blocks (post : List α) : ∀ {xs ys : List α} (pre mid : List α),
    xs.length = ys.length →
    swapRange (pre ++ (xs ++ (mid ++ (ys ++ post)))) pre.length
        (pre.length + (xs.length + mid.length)) xs.length =
      some (pre ++ (ys ++ (mid ++ (xs ++ post))))
  | [], [], pre, mid, _ => swapRange_zero _ _ _
  | x :: xs, y :: ys, pre, mid, h => by
    -- the first pair of elements goes over to the parts that stay
    have ih := swapRange_blocks post (pre ++ [y]) (mid ++ [x]) (Nat.succ.inj h)
    have hswap := swapAt_middle pre (xs ++ mid) (ys ++ post) x y
    simp only [List.length_append, List.length_cons, List.length_nil, List.append_assoc,
      List.cons_append, List.nil_append, Nat.zero_add] at ih hswap ⊢
    rw [show pre.length + (xs.length + 1 + mid.length) =
      pre.length + (xs.length + mid.length + 1) by omega, swapRange_succ, hswap, Option.bind_some]
    rw [show pre.length + (xs.length + mid.length + 1) + 1 =
      pre.length + 1 + (xs.length + (mid.length + 1)) by omega]
    exact ih

end Librecompat.Lib
