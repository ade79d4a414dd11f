/-
  Bounded repetition of a language.

  `repetition L n m` has the words that are `k` words of `L` in a row, for some `k` from `n` on and,
  where `m` is a bound, at most `m`. The rules take it apart into the parts that its usual
  expansion is made of: `n` times `L`, and then nested options or the star.
-/
import Mathlib.Computability.Language

namespace Librecompat.Lib

open scoped Computability

variable {α : Type*}

/-- The union of `L ^ k` over all `k` that are `n` at least and `m` at most, if that is a bound. -/
def repetition (L : Language α) (n : Nat) (m : Option Nat) : Language α :=
  {x | ∃ k, n ≤ k ∧ (∀ e ∈ m, k ≤ e) ∧ x ∈ L ^ k}

variable {L : Language α}

theorem mem_repetition {n : Nat} {m : Option Nat} {x : List α} :
    x ∈ repetition L n m ↔ ∃ k, n ≤ k ∧ (∀ e ∈ m, k ≤ e) ∧ x ∈ L ^ k := Iff.rfl

theorem repetition_exact (L : Language α) (n : Nat) : repetition L n (some n) = L ^ n := by
  ext x
  rw [mem_repetition]
  constructor
  · rintro ⟨k, hn, hm, hx⟩
    obtain rfl : k = n := le_antisymm (hm n rfl) hn
    exact hx
  · exact fun hx => ⟨n, le_rfl, fun e he => (Option.some.inj he).le, hx⟩

/-- Repeating the empty word gives the empty word, where the bounds are in order. -/
theorem repetition_one {n : Nat} {m : Option Nat} (h : ∀ e ∈ m, n ≤ e) :
    repetition (1 : Language α) n m = 1 := by
  ext x
  simp only [mem_repetition, one_pow]
  exact ⟨fun ⟨_, _, _, hx⟩ => hx, fun hx => ⟨n, le_rfl, h, hx⟩⟩

/-- Without bounds it is the star. -/
theorem repetition_star (L : Language α) : repetition L 0 none = L∗ := by
  ext x
  rw [mem_repetition, Language.kstar_eq_iSup_pow, Language.mem_iSup]
  exact ⟨fun ⟨k, _, _, hx⟩ => ⟨k, hx⟩, fun ⟨k, hx⟩ => ⟨k, Nat.zero_le k, by simp, hx⟩⟩

/-- One more option around. -/
theorem repetition_succ (L : Language α) (m : Nat) :
    repetition L 0 (some (m + 1)) = repetition L 0 (some m) * L + 1 := by
  ext x
  rw [Language.mem_add, Language.mem_mul, mem_repetition]
  constructor
  · rintro ⟨k, _, hm, hx⟩
    cases k with
    | zero => exact .inr hx
    | succ k =>
      rw [pow_succ] at hx
      obtain ⟨y, hy, z, hz, rfl⟩ := Language.mem_mul.mp hx
      have hk : k ≤ m := Nat.le_of_succ_le_succ (hm _ rfl)
      exact .inl ⟨y, mem_repetition.mpr ⟨k, Nat.zero_le k, by simpa using hk, hy⟩, z, hz, rfl⟩
  · rintro (⟨y, hy, z, hz, rfl⟩ | hx)
    · obtain ⟨k, _, hm, hy⟩ := mem_repetition.mp hy
      have hk : k ≤ m := hm m rfl
      refine ⟨k + 1, Nat.zero_le _, by simpa using hk, ?_⟩
      rw [pow_succ]
      exact Language.append_mem_mul hy hz
    · exact ⟨0, le_rfl, by simp, hx⟩

/-- Words of `L` in front raise both bounds. -/
theorem pow_mul_repetition (L : Language α) (n : Nat) (m : Option Nat) :
    L ^ n * repetition L 0 m = repetition L n (m.map (n + ·)) := by
  ext x
  rw [Language.mem_mul, mem_repetition]
  constructor
  · rintro ⟨y, hy, z, hz, rfl⟩
    obtain ⟨k, _, hm, hz⟩ := mem_repetition.mp hz
    refine ⟨n + k, Nat.le_add_right n k, fun e he => ?_, ?_⟩
    · obtain ⟨e', he', rfl⟩ := Option.map_eq_some_iff.mp he
      exact Nat.add_le_add_left (hm e' he') n
    · rw [pow_add]
      exact Language.append_mem_mul hy hz
  · rintro ⟨k, hn, hm, hx⟩
    obtain ⟨j, rfl⟩ := Nat.exists_eq_add_of_le hn
    rw [pow_add] at hx
    obtain ⟨y, hy, z, hz, rfl⟩ := Language.mem_mul.mp hx
    refine ⟨y, hy, z, mem_repetition.mpr ⟨j, Nat.zero_le j, fun e he => ?_, hz⟩, rfl⟩
    exact Nat.le_of_add_le_add_left (hm (n + e) (Option.map_eq_some_iff.mpr ⟨e, he, rfl⟩))

end Librecompat.Lib
