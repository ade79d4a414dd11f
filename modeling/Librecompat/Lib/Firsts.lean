/-
  The first `k` results of a search along a list.

  Two searches `f` and `g` go along the same list, and each result is kept with the place it was
  found at. They have the same first `k` results exactly when they agree at every place before
  the `k`-th result (`take_found_eq_iff`).
-/
import Mathlib.Data.List.Basic

namespace Librecompat.Lib

variable {α β τ : Type}

/-- The results of `f` along the list, each with its place. -/
def found (place : α → τ) (f : α → Option β) (l : List α) : List (τ × β) :=
  l.filterMap fun x => (f x).map fun b => (place x, b)

variable {place : α → τ} {f g : α → Option β}

theorem found_cons_none {x : α} (l : List α) (h : f x = none) :
    found place f (x :: l) = found place f l := by
  simp [found, h]

theorem found_cons_some {x : α} {b : β} (l : List α) (h : f x = some b) :
    found place f (x :: l) = (place x, b) :: found place f l := by
  simp [found, h]

/-- A result has its place in the list. -/
theorem place_of_mem_found {l : List α} {r : τ × β} (h : r ∈ found place f l) :
    r.1 ∈ l.map place := by
  obtain ⟨x, hx, hr⟩ := List.mem_filterMap.mp h
  obtain ⟨b, _, rfl⟩ := Option.map_eq_some_iff.mp hr
  exact List.mem_map_of_mem hx

/-- A place with a result of one search only comes before all results of the other. -/
theorem take_found_ne {x : α} {l : List α} {b : β} (hx : place x ∉ l.map place) (k : Nat)
    (rest : List (τ × β)) : (place x, b) :: rest ≠ (found place g l).take (k + 1) := by
  intro heq
  have hmem : (place x, b) ∈ (found place g l).take (k + 1) := heq ▸ List.mem_cons_self
  exact hx (place_of_mem_found (List.mem_of_mem_take hmem))

/-- The searches agree at every place before the `k`-th result of `g`. -/
def AgreeBefore (place : α → τ) (f g : α → Option β) (k : Nat) (l : List α) : Prop :=
  ∀ l₁ x l₂, l = l₁ ++ x :: l₂ → (found place g l₁).length < k → f x = g x

theorem agreeBefore_cons {x : α} {l : List α} {k : Nat} :
    AgreeBefore place f g (k + 1) (x :: l) ↔
      f x = g x ∧ AgreeBefore place f g (k + 1 - (g x).toList.length) l := by
  constructor
  · intro h
    refine ⟨h [] x l rfl (Nat.succ_pos k), fun l₁ y l₂ hl hlt => ?_⟩
    refine h (x :: l₁) y l₂ (by rw [hl, List.cons_append]) ?_
    cases hg : g x with
    | none =>
      rw [hg] at hlt
      rw [found_cons_none l₁ hg]
      exact hlt
    | some b =>
      rw [hg] at hlt
      rw [found_cons_some l₁ hg]
      exact Nat.succ_lt_succ hlt
  · rintro ⟨hx, h⟩ l₁ y l₂ hl hlt
    cases l₁ with
    | nil =>
      obtain ⟨rfl, _⟩ := List.cons.inj hl
      exact hx
    | cons z l₁ =>
      obtain ⟨rfl, htail⟩ := List.cons.inj hl
      refine h l₁ y l₂ htail ?_
      cases hg : g x with
      | none =>
        rw [found_cons_none l₁ hg] at hlt
        exact hlt
      | some b =>
        rw [found_cons_some l₁ hg] at hlt
        exact Nat.lt_of_succ_lt_succ hlt

/-- The first `k` results are the same exactly when the searches agree as far as they go. -/
theorem take_found_eq_iff {l : List α} (hl : (l.map place).Nodup) {k : Nat} :
    (found place f l).take k = (found place g l).take k ↔ AgreeBefore place f g k l := by
  induction l generalizing k with
  | nil => exact ⟨fun _ l₁ x l₂ h => absurd h (by simp), fun _ => rfl⟩
  | cons x l ih =>
    rw [List.map_cons, List.nodup_cons] at hl
    cases k with
    | zero => exact ⟨fun _ _ _ _ _ h => absurd h (Nat.not_lt_zero _), fun _ => by simp⟩
    | succ k =>
      rw [agreeBefore_cons, ← ih hl.2]
      cases hf : f x with
      | none =>
        rw [found_cons_none l hf]
        cases hg : g x with
        | none =>
          rw [found_cons_none l hg]
          exact ⟨fun h => ⟨rfl, h⟩, fun h => h.2⟩
        | some b =>
          rw [found_cons_some l hg, List.take_succ_cons]
          exact ⟨fun h => absurd h.symm (take_found_ne hl.1 k _), fun h => by cases h.1⟩
      | some a =>
        rw [found_cons_some l hf, List.take_succ_cons]
        cases hg : g x with
        | none =>
          rw [found_cons_none l hg]
          exact ⟨fun h => absurd h (take_found_ne hl.1 k _), fun h => by cases h.1⟩
        | some b =>
          rw [found_cons_some l hg, List.take_succ_cons, List.cons.injEq, Prod.mk.injEq,
            Option.some.injEq]
          exact ⟨fun h => ⟨h.1.2, h.2⟩, fun h => ⟨⟨rfl, h.1⟩, h.2⟩⟩

end Librecompat.Lib
