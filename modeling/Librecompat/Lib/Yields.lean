/-
  What a partial program leaves, whenever it leaves something.

  `Yields P x` is partial correctness for a value of type `Option`: nothing is said where the program
  goes wrong. There is a rule for each way to put such programs together: one behind another, a loop
  over a list, a `while` loop. `bind_eq_ok` takes a program apart whose errors are values.
-/
import Librecompat.Lib.Loop

namespace Librecompat.Lib

variable {α β σ ρ : Type}

/-- The result, if there is one, has the property. -/
def Yields (P : α → Prop) (x : Option α) : Prop := ∀ a, x = some a → P a

variable {P Q : α → Prop}

@[simp] theorem yields_none : Yields P (none : Option α) := fun _ h => absurd h (by simp)

@[simp] theorem yields_some {a : α} : Yields P (some a) ↔ P a :=
  ⟨fun h => h a rfl, fun h _ ha => Option.some.inj ha ▸ h⟩

theorem Yields.mono {x : Option α} (h : Yields P x) (hPQ : ∀ a, P a → Q a) : Yields Q x :=
  fun a ha => hPQ a (h a ha)

theorem Yields.and {x : Option α} (h : Yields P x) (h' : Yields Q x) :
    Yields (fun a => P a ∧ Q a) x :=
  fun a ha => ⟨h a ha, h' a ha⟩

/-- One program behind another. -/
theorem Yields.bind {R : β → Prop} {x : Option α} {f : α → Option β} (h : Yields P x)
    (hf : ∀ a, x = some a → P a → Yields R (f a)) : Yields R (x.bind f) := by
  cases x with
  | none => exact yields_none
  | some a => exact hf a rfl (h a rfl)

/-- Of the first program nothing is needed but its result. -/
theorem yields_bind {R : β → Prop} {x : Option α} {f : α → Option β}
    (hf : ∀ a, x = some a → Yields R (f a)) : Yields R (x.bind f) := by
  cases x with
  | none => exact yields_none
  | some a => exact hf a rfl

theorem Yields.map {R : β → Prop} {x : Option α} {f : α → β} (h : Yields P x)
    (hf : ∀ a, P a → R (f a)) : Yields R (x.map f) := by
  cases x with
  | none => exact yields_none
  | some a => exact yields_some.mpr (hf a (h a rfl))

/-- An invariant that every pass keeps holds behind a loop over a list. -/
theorem yields_foldlM {I : σ → Prop} {f : σ → α → Option σ} (hpass : ∀ s a, I s → Yields I (f s a)) :
    ∀ {l : List α} {s : σ}, I s → Yields I (l.foldlM f s)
  | [], _, hI => yields_some.mpr hI
  | a :: l, s, hI => by
    rw [List.foldlM_cons]
    exact (hpass s a hI).bind fun s' _ hI' => yields_foldlM hpass hI'

/-- An invariant that every pass keeps, unless it leaves the loop with a result that is right. -/
theorem yields_tryLoop {I : σ → Prop} {R : ρ → Prop} {body : σ → Option (σ ⊕ ρ)}
    (hpass : ∀ s, I s → Yields (Sum.elim I R) (body s)) :
    ∀ {n : Nat} {s : σ}, I s → Yields R (tryLoop body n s)
  | 0, _, _ => yields_none
  | n + 1, s, hI => (hpass s hI).bind fun r _ hr => by
    cases r with
    | inl s' => exact yields_tryLoop hpass hr
    | inr r => exact yields_some.mpr hr

/-- One program has succeeded behind another. -/
theorem bind_eq_ok {ε : Type} {x : Except ε α} {f : α → Except ε β} {b : β}
    (h : (x >>= f) = .ok b) : ∃ a, x = .ok a ∧ f a = .ok b := by
  cases x with
  | error err => cases h
  | ok a => exact ⟨a, rfl, h⟩

end Librecompat.Lib
