/-
  One partial program does what another does.

  `Simulates R x y` says that whenever `x` leaves a result, `y` leaves one that is related to it.
  Programs put together from such parts are related in the same way, step by step.
-/
import Librecompat.Lib.Loop

namespace Librecompat.Lib

variable {α β γ δ σ τ ρ : Type}

def Simulates (R : α → β → Prop) (x : Option α) (y : Option β) : Prop :=
  ∀ a, x = some a → ∃ b, y = some b ∧ R a b

variable {R : α → β → Prop} {S : γ → δ → Prop}

theorem simulates_some {a : α} {b : β} (h : R a b) : Simulates R (some a) (some b) := by
  intro a' ha
  obtain rfl := Option.some.inj ha
  exact ⟨b, rfl, h⟩

/-- One program behind another. -/
theorem Simulates.bind {x : Option α} {y : Option β} {f : α → Option γ} {g : β → Option δ}
    (h : Simulates R x y) (hf : ∀ a b, R a b → Simulates S (f a) (g b)) :
    Simulates S (x.bind f) (y.bind g) := by
  intro c hc
  obtain ⟨a, ha, hfa⟩ := Option.bind_eq_some_iff.mp hc
  obtain ⟨b, hb, hab⟩ := h a ha
  rw [hb, Option.bind_some]
  exact hf a b hab c hfa

/-- The first program is the same. -/
theorem simulates_bind {x : Option α} {f : α → Option γ} {g : α → Option δ}
    (hf : ∀ a, x = some a → Simulates S (f a) (g a)) : Simulates S (x.bind f) (x.bind g) := by
  intro c hc
  obtain ⟨a, ha, hfa⟩ := Option.bind_eq_some_iff.mp hc
  rw [ha, Option.bind_some]
  exact hf a ha c hfa

/-- A loop over a list. -/
theorem simulates_foldlM {f : α → γ → Option α} {g : β → γ → Option β}
    (hpass : ∀ a b c, R a b → Simulates R (f a c) (g b c)) :
    ∀ {l : List γ} {a : α} {b : β}, R a b → Simulates R (l.foldlM f a) (l.foldlM g b)
  | [], _, _, h => simulates_some h
  | c :: l, a, b, h => by
    rw [List.foldlM_cons, List.foldlM_cons]
    exact (hpass a b c h).bind fun a' b' h' => simulates_foldlM hpass h'

/-- A `while` loop, with as much fuel or more. -/
theorem simulates_tryLoop {body : α → Option (α ⊕ γ)} {body' : β → Option (β ⊕ δ)}
    (hpass : ∀ a b, R a b → Simulates (Sum.LiftRel R S) (body a) (body' b)) :
    ∀ {n n' : Nat} {a : α} {b : β}, n ≤ n' → R a b →
      Simulates S (tryLoop body n a) (tryLoop body' n' b)
  | 0, _, _, _, _, _ => fun _ hc => by cases hc
  | n + 1, 0, _, _, hle, _ => absurd hle (by omega)
  | n + 1, n' + 1, a, b, hle, h => by
    rw [tryLoop, tryLoop]
    refine (hpass a b h).bind fun r r' hr => ?_
    cases hr with
    | inl h' => exact simulates_tryLoop hpass (Nat.le_of_succ_le_succ hle) h'
    | inr h' => exact simulates_some h'

end Librecompat.Lib
