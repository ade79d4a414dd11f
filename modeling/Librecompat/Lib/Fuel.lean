/-
  More fuel does not change a result.

  `Below x y` says that the program `y` has the result of `x`, if `x` has one: `x` may have run out
  of fuel. Programs put together from such parts are related in the same way, and a loop with fewer
  passes is below the loop with more of them (`tryLoop_below`). So what is known of a program with
  enough fuel holds with any fuel that gives a result (`Below.yields`). `Arrives body Q s` is for a
  loop that is followed pass by pass where the number of the passes does not matter.
-/
import Librecompat.Lib.Yields

namespace Librecompat.Lib

variable {α β σ ρ : Type}

/-- The second program has the result of the first. -/
def Below (x y : Option α) : Prop := ∀ a, x = some a → y = some a

theorem Below.refl (x : Option α) : Below x x := fun _ h => h

theorem below_none (y : Option α) : Below none y := fun _ h => absurd h (by simp)

theorem Below.bind {x y : Option α} {f g : α → Option β} (h : Below x y)
    (hf : ∀ a, x = some a → Below (f a) (g a)) : Below (x.bind f) (y.bind g) := by
  intro b hb
  obtain ⟨a, ha, hfa⟩ := Option.bind_eq_some_iff.mp hb
  rw [h a ha, Option.bind_some]
  exact hf a ha b hfa

/-- One program behind another that does not depend on the fuel. -/
theorem below_bind {x : Option α} {f g : α → Option β} (hf : ∀ a, x = some a → Below (f a) (g a)) :
    Below (x.bind f) (x.bind g) :=
  (Below.refl x).bind hf

theorem Below.yields {x y : Option α} {P : α → Prop} (h : Below x y) (hy : Yields P y) :
    Yields P x :=
  fun a ha => hy a (h a ha)

/-- What the program with enough fuel is known to leave. -/
theorem Below.yields_of_eq {x y : Option α} {P : α → Prop} {a : α} (h : Below x y)
    (hy : y = some a) (ha : P a) : Yields P x :=
  h.yields fun _ hb => Option.some.inj (hy.symm.trans hb) ▸ ha

theorem tryLoop_below {body : σ → Option (σ ⊕ ρ)} : ∀ {n n' : Nat} (s : σ), n ≤ n' →
    Below (tryLoop body n s) (tryLoop body n' s)
  | 0, _, _, _ => below_none _
  | n + 1, 0, _, h => absurd h (by omega)
  | n + 1, n' + 1, s, h => by
    rw [tryLoop, tryLoop]
    refine below_bind fun r _ => ?_
    cases r with
    | inl s' => exact tryLoop_below s' (Nat.le_of_succ_le_succ h)
    | inr r => exact Below.refl _

/-- Whenever the loop that is in the state leaves a result, it is as wanted. -/
def Arrives (body : σ → Option (σ ⊕ ρ)) (Q : ρ → Prop) (s : σ) : Prop :=
  ∀ n, Yields Q (tryLoop body n s)

section Arrives

variable {body : σ → Option (σ ⊕ ρ)} {Q : ρ → Prop}

/-- One pass, whatever it does. -/
theorem arrives_of {s : σ} (h : Yields (Sum.elim (Arrives body Q) Q) (body s)) :
    Arrives body Q s
  | 0 => yields_none
  | n + 1 => h.bind fun r _ hr => by
    cases r with
    | inl s' => exact hr n
    | inr r => exact yields_some.mpr hr

theorem Arrives.head {s s' : σ} (h : Arrives body Q s') (hpass : body s = some (.inl s')) :
    Arrives body Q s := by
  refine arrives_of ?_
  rw [hpass]
  exact yields_some.mpr h

end Arrives

end Librecompat.Lib
